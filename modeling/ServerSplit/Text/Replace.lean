import ServerSplit.Text.Basic

/-! Replacing every occurrence of a text in another, from left to right and without overlaps. -/
namespace ServerSplit.Text

def replace (t old new : Text) : Text := go t 0
where
  /-- The next `n` characters belong to an occurrence that has been replaced. -/
  go : Text → Nat → Text
    | [], _ => []
    | _ :: r, n + 1 => go r n
    | c :: r, 0 =>
      match after old (c :: r) with
      | some _ => new ++ go r (old.length - 1)
      | none => c :: go r 0

end ServerSplit.Text
