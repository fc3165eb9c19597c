import ServerSplit.Text.Basic

/-! Lines and columns. A line ends at a line feed and nowhere else; a column is a count of bytes. -/
namespace ServerSplit

/-- A line and a column, both counted from one. -/
structure Place where
  line : Nat
  column : Nat
  deriving Repr, DecidableEq

namespace Place

def first : Place := ⟨1, 1⟩

/-- The place after one more character. -/
def next (p : Place) (c : Char) : Place :=
  if c = '\n' then ⟨p.line + 1, 1⟩ else ⟨p.line, p.column + c.utf8Size⟩

/-- The place that `offset` bytes of the text lead to. -/
def ofOffset (t : Text) (offset : Nat) : Place := go t offset first
where
  go : Text → Nat → Place → Place
    | [], _, p => p
    | c :: r, n, p => if n < c.utf8Size then p else go r (n - c.utf8Size) (p.next c)

end Place

end ServerSplit
