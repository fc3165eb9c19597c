import ServerSplit.Text.Basic

/-! Texts in place of ranges of bytes. -/
namespace ServerSplit

/-- A text in place of the bytes from `start` up to `stop`. -/
structure Edit where
  start : Nat
  stop : Nat
  replacement : Text
  deriving Repr, DecidableEq

namespace Edit

/-- The text with one range replaced. -/
def apply (t : Text) (e : Edit) : Text :=
  Text.slice 0 e.start t ++ e.replacement ++ Text.slice e.stop t.size t

/-- The text with all ranges replaced, the last one first, so that no range moves before its turn. -/
def applyAll (t : Text) (es : List Edit) : Text :=
  (es.mergeSort fun a b => decide (b.start ≤ a.start)).foldl apply t

end Edit

end ServerSplit
