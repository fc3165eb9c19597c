import ServerSplit.Text.Digits

/-! Binary numbers with a mantissa of 53 bits in decimal digits: the fewest digits that read back. -/
namespace ServerSplit.Decimal

/-- A finite number: `mantissa * 2 ^ exponent`, with its sign. -/
structure Binary where
  negative : Bool
  mantissa : Nat
  exponent : Int
  /-- Whether the next smaller number is only half as far away as the next larger. -/
  narrow : Bool
  deriving Repr, DecidableEq

/-- The number that the bits of a finite double stand for. -/
def Binary.ofBits (bits : UInt64) : Binary :=
  let n := bits.toNat
  let fraction := n % Nat.pow 2 52
  let biased := n / Nat.pow 2 52 % Nat.pow 2 11
  { negative := Nat.pow 2 63 ≤ n
    mantissa := if biased = 0 then fraction else fraction + Nat.pow 2 52
    exponent := (if biased = 0 then 1 else biased : Nat) - (1075 : Int)
    narrow := fraction = 0 ∧ 1 < biased }

/-- A positive fraction of natural numbers. -/
structure Fraction where
  num : Nat
  den : Nat

namespace Fraction

def le (a b : Fraction) : Bool := a.num * b.den ≤ b.num * a.den

def lt (a b : Fraction) : Bool := a.num * b.den < b.num * a.den

/-- `m * base ^ e`. -/
def scaled (m base : Nat) (e : Int) : Fraction :=
  if 0 ≤ e then ⟨m * Nat.pow base e.toNat, 1⟩ else ⟨m, Nat.pow base (-e).toNat⟩

end Fraction

/-- The exponent of the leading decimal digit of a positive fraction. -/
def leadingExponent (a : Fraction) : Int :=
  if a.den ≤ a.num then ((Text.ofNat (a.num / a.den)).length : Int) - 1
  else -(go 400 1 (a.num * 10) : Nat)
where
  /-- The number of times a fraction below one takes to reach one when multiplied by ten. -/
  go : Nat → Nat → Nat → Nat
    | 0, k, _ => k
    | n + 1, k, num => if a.den ≤ num then k else go n (k + 1) (num * 10)

/-- The multiples of `10 ^ k` next to a fraction: the one not above it. -/
def below (a : Fraction) (k : Int) : Nat :=
  if 0 ≤ k then a.num / (a.den * Nat.pow 10 k.toNat) else a.num * Nat.pow 10 (-k).toNat / a.den

/-- Whether `a` is nearer to `d * 10 ^ k` than to the next multiple; a tie goes to the even one. -/
def nearerBelow (a : Fraction) (d : Nat) (k : Int) : Bool :=
  let middle := Fraction.scaled (2 * d + 1) 10 k
  let twice : Fraction := ⟨2 * a.num, a.den⟩
  twice.lt middle || (twice.le middle && d % 2 = 0)

/-- The fewest digits, as a number, and the exponent of the last one, such that no other double is
nearer; of two choices the nearer one. -/
def shortest (b : Binary) : Nat × Int :=
  let value := Fraction.scaled (4 * b.mantissa) 2 (b.exponent - 2)
  let low := Fraction.scaled (4 * b.mantissa - if b.narrow then 1 else 2) 2 (b.exponent - 2)
  let high := Fraction.scaled (4 * b.mantissa + 2) 2 (b.exponent - 2)
  let reads := fun (d : Nat) (k : Int) =>
    let x := Fraction.scaled d 10 k
    if b.mantissa % 2 = 0 then low.le x && x.le high else low.lt x && x.lt high
  go value reads (leadingExponent value) 17
where
  /-- Tries ever finer grids; the fuel is the number of grids left. -/
  go (value : Fraction) (reads : Nat → Int → Bool) (k : Int) : Nat → Nat × Int
    | 0 => (below value k, k)
    | n + 1 =>
      let d := below value k
      match reads d k, reads (d + 1) k with
      | true, true => if nearerBelow value d k then (d, k) else (d + 1, k)
      | true, false => (d, k)
      | false, true => (d + 1, k)
      | false, false => go value reads (k - 1) n

/-- Digits without the zeros at their end, and the exponent of the last one left. -/
def normalize (d : Nat) (k : Int) : Nat × Int := go 400 d k
where
  go : Nat → Nat → Int → Nat × Int
    | 0, d, k => (d, k)
    | n + 1, d, k => if d ≠ 0 ∧ d % 10 = 0 then go n (d / 10) (k + 1) else (d, k)

/-- The text of a finite double: positional from `0.00001` up to 16 digits before the point, and with
an exponent otherwise. -/
def render (b : Binary) : Text :=
  let sign : Text := if b.negative then ['-'] else []
  if b.mantissa = 0 then sign ++ "0.0".toList
  else
    let (d, k) := shortest b
    let (d, k) := normalize d k
    let digits := Text.ofNat d
    let point : Int := digits.length + k
    let zeros := fun (n : Int) => List.replicate n.toNat '0'
    sign ++
      if 0 ≤ k ∧ point ≤ 16 then digits ++ zeros k ++ ".0".toList
      else if 0 < point ∧ point ≤ 16 then
        digits.take point.toNat ++ ['.'] ++ digits.drop point.toNat
      else if -5 < point ∧ point ≤ 0 then "0.".toList ++ zeros (-point) ++ digits
      else
        let exponent := point - 1
        (match digits with
          | [c] => [c]
          | c :: r => c :: '.' :: r
          | [] => []) ++
          ['e', if exponent < 0 then '-' else '+'] ++ Text.ofNat exponent.natAbs

end ServerSplit.Decimal
