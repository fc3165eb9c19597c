import ServerSplit.Text.Basic

/-! Numbers written in digits. -/
namespace ServerSplit.Text

/-- The digit of a value below sixteen, in lower case. -/
def digit (n : Nat) : Char := Nat.digitChar n

/-- A number in the given base, with no zero before it. -/
def ofNat (n : Nat) (base : Nat := 10) : Text := Nat.toDigits base n

/-- The last `width` digits of a number in base sixteen. -/
def hex (width n : Nat) : Text :=
  (List.range width).reverse.map fun i => digit (n / Nat.pow 16 i % 16)

/-- The value of a digit in bases up to sixteen. -/
def digitValue? (c : Char) : Option Nat :=
  if c.isDigit then some (c.toNat - 48)
  else if 'a' ≤ c ∧ c ≤ 'f' then some (c.toNat - 87)
  else if 'A' ≤ c ∧ c ≤ 'F' then some (c.toNat - 55)
  else none

/-- The value of digits in a base. -/
def toNat? (base : Nat) (t : Text) : Option Nat :=
  if t.isEmpty then none
  else t.foldlM (fun n c => (digitValue? c).bind fun d => if d < base then some (n * base + d) else none) 0

end ServerSplit.Text
