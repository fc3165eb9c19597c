import ServerSplit.Decimal.Binary

/-! Decimal numbers as doubles, and doubles in digits without an exponent. -/
namespace ServerSplit.Decimal

/-- The quotient of two natural numbers, rounded to the nearer whole number; a tie goes to the even
one. -/
def roundedQuotient (a b : Nat) : Nat :=
  let q := a / b
  let r := 2 * (a % b)
  if b < r ∨ (r = b ∧ q % 2 = 1) then q + 1 else q

/-- The double nearest to a positive fraction, if there is one. -/
def Binary.nearest? (negative : Bool) (a : Fraction) : Option Binary :=
  let top : Int := Nat.log2 a.num - Nat.log2 a.den
  let exponent := max (-1074) (if a.lt (Fraction.scaled 1 2 top) then top - 53 else top - 52)
  let scaled : Fraction :=
    if 0 ≤ exponent then ⟨a.num, a.den * Nat.pow 2 exponent.toNat⟩
    else ⟨a.num * Nat.pow 2 (-exponent).toNat, a.den⟩
  let q := roundedQuotient scaled.num scaled.den
  let (mantissa, exponent) := if q = Nat.pow 2 53 then (Nat.pow 2 52, exponent + 1) else (q, exponent)
  if 971 < exponent then none
  else some { negative, mantissa, exponent, narrow := mantissa = Nat.pow 2 52 ∧ -1074 < exponent }

/-- The double nearest to `digits * 10 ^ exponent`, if there is one. -/
def Binary.ofDecimal? (negative : Bool) (digits : Nat) (exponent : Int) : Option Binary :=
  let zero : Binary := ⟨negative, 0, -1074, false⟩
  if digits = 0 then some zero
  else if 400 < exponent then none
  else if exponent + (Text.ofNat digits).length < -400 then some zero
  else nearest? negative (Fraction.scaled digits 10 exponent)

/-- The text of a double without an exponent. -/
def renderPlain (b : Binary) : Text :=
  let sign : Text := if b.negative then ['-'] else []
  if b.mantissa = 0 then sign ++ "0.0".toList
  else
    let (d, k) := shortest b
    let (d, k) := normalize d k
    let digits := Text.ofNat d
    let point : Int := digits.length + k
    let zeros := fun (n : Int) => List.replicate n.toNat '0'
    sign ++
      if 0 ≤ k then digits ++ zeros k ++ ".0".toList
      else if 0 < point then digits.take point.toNat ++ ['.'] ++ digits.drop point.toNat
      else "0.".toList ++ zeros (-point) ++ digits

end ServerSplit.Decimal
