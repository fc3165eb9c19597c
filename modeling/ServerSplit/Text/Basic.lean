/-! Text as a list of characters, measured in UTF-8 bytes. Every offset and size of the library
is a byte count of this measure. -/
namespace ServerSplit

abbrev Text := List Char

namespace Text

/-- The number of bytes that the text takes in UTF-8. -/
def size : Text → Nat
  | [] => 0
  | c :: r => c.utf8Size + size r

@[simp] theorem size_nil : size [] = 0 := rfl

@[simp] theorem size_cons (c : Char) (r : Text) : size (c :: r) = c.utf8Size + size r := rfl

@[simp] theorem size_append (s t : Text) : size (s ++ t) = size s + size t := by
  induction s with
  | nil => simp
  | cons c r ih => simp [ih, Nat.add_assoc]

/-- What follows `p` in the text, if the text begins with `p`. -/
def after : Text → Text → Option Text
  | [], t => some t
  | _ :: _, [] => none
  | p :: ps, c :: r => if p = c then after ps r else none

theorem eq_append_of_after {p t r : Text} (h : after p t = some r) : t = p ++ r := by
  induction p generalizing t with
  | nil => simpa [after] using h
  | cons c p ih =>
    cases t with
    | nil => simp [after] at h
    | cons d t =>
      by_cases hc : c = d
      · subst hc
        simp [after] at h
        simp [ih h]
      · simp [after, hc] at h

/-- Whether the text ends with `p`. -/
def endsWith (p t : Text) : Bool := (after p.reverse t.reverse).isSome

/-- The parts of the text between separators. -/
def splitOn (sep : Char) : Text → List Text
  | [] => [[]]
  | c :: r =>
    if c = sep then [] :: splitOn sep r
    else match splitOn sep r with
      | [] => [[c]]
      | w :: ws => (c :: w) :: ws

/-- The texts one after another with `sep` between neighbours. -/
def joinWith (sep : Text) : List Text → Text
  | [] => []
  | [t] => t
  | t :: ts => t ++ sep ++ joinWith sep ts

/-- The text from byte `start` up to byte `stop`, both on character boundaries. -/
def slice (start stop : Nat) (t : Text) : Text := go start stop t
where
  go : Nat → Nat → Text → Text
    | _, _, [] => []
    | start, stop, c :: r =>
      if stop < c.utf8Size then []
      else if start = 0 then c :: go 0 (stop - c.utf8Size) r
      else go (start - c.utf8Size) (stop - c.utf8Size) r

end Text

end ServerSplit
