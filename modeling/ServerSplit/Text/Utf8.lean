import ServerSplit.Text.Basic

/-! Texts as bytes and back. -/
namespace ServerSplit.Text

/-- The bytes of a character in UTF-8. -/
def charBytes (c : Char) : List UInt8 :=
  let n := c.toNat
  let tail := fun k => (0x80 + n / Nat.pow 64 k % 64).toUInt8
  if n < 0x80 then [n.toUInt8]
  else if n < 0x800 then [(0xC0 + n / 64).toUInt8, tail 0]
  else if n < 0x10000 then [(0xE0 + n / Nat.pow 64 2).toUInt8, tail 1, tail 0]
  else [(0xF0 + n / Nat.pow 64 3).toUInt8, tail 2, tail 1, tail 0]

def bytes (t : Text) : List UInt8 := t.flatMap charBytes

def isTail (b : UInt8) : Bool := 0x80 ≤ b && b < 0xC0

/-- The bytes that `k` tail bytes add to a lead value. -/
def tailValue : Nat → Nat → List UInt8 → Option (Nat × List UInt8)
  | 0, n, bs => some (n, bs)
  | _ + 1, _, [] => none
  | k + 1, n, b :: bs => if isTail b then tailValue k (n * 64 + (b.toNat - 0x80)) bs else none

/-- The character at the head of the bytes and what follows it. -/
def readChar? : List UInt8 → Option (Char × List UInt8)
  | [] => none
  | b :: bs =>
    let n := b.toNat
    let read := fun k lead least =>
      match tailValue k lead bs with
      | some (v, rest) =>
        if least ≤ v ∧ v.isValidChar then some (Char.ofNat v, rest) else none
      | none => none
    if n < 0x80 then some (Char.ofNat n, bs)
    else if n < 0xC0 then none
    else if n < 0xE0 then read 1 (n - 0xC0) 0x80
    else if n < 0xF0 then read 2 (n - 0xE0) 0x800
    else if n < 0xF8 then read 3 (n - 0xF0) 0x10000
    else none

/-- The longest text that the bytes begin with, and the bytes behind it. -/
def ofBytes (bs : List UInt8) : Text × List UInt8 := go bs.length bs
where
  /-- The fuel is the number of bytes. -/
  go : Nat → List UInt8 → Text × List UInt8
    | 0, bs => ([], bs)
    | n + 1, bs =>
      match readChar? bs with
      | none => ([], bs)
      | some (c, rest) => let (t, left) := go n rest; (c :: t, left)

/-- The text that the bytes are in UTF-8, if they are one. -/
def ofBytes? (bs : List UInt8) : Option Text :=
  match ofBytes bs with
  | (t, []) => some t
  | _ => none

end ServerSplit.Text
