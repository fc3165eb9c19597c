import ServerSplit.Text.Basic

/-! White space, as the Unicode property White_Space has it, and what is left when it is taken
away. -/
namespace ServerSplit.Text

/-- The code points with the property White_Space. -/
def blankRanges : List (Nat × Nat) :=
  [(0x9, 0xD), (0x20, 0x20), (0x85, 0x85), (0xA0, 0xA0), (0x1680, 0x1680), (0x2000, 0x200A),
   (0x2028, 0x2029), (0x202F, 0x202F), (0x205F, 0x205F), (0x3000, 0x3000)]

def isBlank (c : Char) : Bool := blankRanges.any fun r => r.1 ≤ c.toNat && c.toNat ≤ r.2

theorem isBlank_of_isWhitespace {c : Char} (h : c.isWhitespace = true) : isBlank c = true := by
  simp only [Char.isWhitespace, Bool.or_eq_true, decide_eq_true_eq] at h
  rcases h with ((rfl | rfl) | rfl) | rfl <;> decide

/-- The text without the blanks before it. -/
def trimStart (t : Text) : Text := t.dropWhile isBlank

/-- The text without the blanks after it. -/
def trimEnd (t : Text) : Text := (t.reverse.dropWhile isBlank).reverse

def trim (t : Text) : Text := trimEnd (trimStart t)

/-- The words of the text: its longest parts without blanks. -/
def words (t : Text) : List Text := go t []
where
  /-- `w` is the word read so far, last character first. -/
  go : Text → Text → List Text
    | [], w => if w.isEmpty then [] else [w.reverse]
    | c :: r, w =>
      if isBlank c then (if w.isEmpty then go r [] else w.reverse :: go r [])
      else go r (c :: w)

/-- The blanks that open the line on which byte `offset` lies, up to that byte. -/
def indentBefore (t : Text) (offset : Nat) : Text :=
  ((slice 0 offset t).reverse.takeWhile (· ≠ '\n')).reverse.takeWhile isBlank

end ServerSplit.Text
