import Mathlib.Tactic.NormNum
import ServerSplit.Text.Utf8

/-! Texts as bytes and back. A text is what its bytes are read as, and texts stand in the order of their
bytes. -/
namespace ServerSplit.Text

@[simp] theorem bytes_nil : bytes [] = [] := rfl

@[simp] theorem bytes_cons (c : Char) (t : Text) : bytes (c :: t) = charBytes c ++ bytes t := rfl

@[simp] theorem bytes_append (s t : Text) : bytes (s ++ t) = bytes s ++ bytes t := List.flatMap_append

theorem toNat_toUInt8 {n : Nat} (h : n < 256) : n.toUInt8.toNat = n := by
  simp [Nat.toUInt8, Nat.mod_eq_of_lt h]

/-- A character of the first 128 is one byte. -/
theorem charBytes_ascii {c : Char} (h : c.toNat < 0x80) : charBytes c = [c.toNat.toUInt8] := by
  simp [charBytes, h]

theorem toNat_lt (c : Char) : c.toNat < 0x110000 := by
  rcases c.valid with h | h
  · exact Nat.lt_trans h (by decide)
  · exact h.2

/-- The bytes of any other character are beyond those of the first 128. -/
theorem le_of_mem_charBytes {c : Char} (h : 0x80 ≤ c.toNat) {b : UInt8} (hb : b ∈ charBytes c) :
    0x80 ≤ b.toNat := by
  have hlt := toNat_lt c
  have htail (m : Nat) : (0x80 + m % 64).toUInt8.toNat = 0x80 + m % 64 := toNat_toUInt8 (by omega)
  simp only [charBytes, Nat.pow_eq, Nat.pow_zero, Nat.pow_one, Nat.div_one, if_neg (Nat.not_lt.2 h)] at hb
  split_ifs at hb
  all_goals
    simp only [List.mem_cons, List.not_mem_nil, or_false] at hb
    rcases hb with rfl | hb
    · rw [toNat_toUInt8 (by omega)]
      omega
  · rw [hb, htail]
    omega
  · rcases hb with rfl | rfl <;> rw [htail] <;> omega
  · rcases hb with rfl | rfl | rfl <;> rw [htail] <;> omega

/-! ### Reading -/

private theorem tailValue_succ {k n m : Nat} {bs : List UInt8} (hm : m < 64) :
    tailValue (k + 1) n ((0x80 + m).toUInt8 :: bs) = tailValue k (n * 64 + m) bs := by
  have hb : (0x80 + m).toUInt8.toNat = 0x80 + m := toNat_toUInt8 (by omega)
  have htail : isTail (0x80 + m).toUInt8 = true := by
    simp only [isTail, Bool.and_eq_true, decide_eq_true_eq, UInt8.le_iff_toNat_le, UInt8.lt_iff_toNat_lt, hb]
    exact ⟨Nat.le_add_right _ _, show 128 + m < 192 by omega⟩
  rw [tailValue, if_pos htail, hb, Nat.add_sub_cancel_left]

/-- The bytes of a character are read as it. -/
theorem readChar?_charBytes (c : Char) (rest : List UInt8) :
    readChar? (charBytes c ++ rest) = some (c, rest) := by
  have hlt := toNat_lt c
  have hvalid : c.toNat.isValidChar := c.valid
  have hself : Char.ofNat c.toNat = c := Char.ofNat_toNat c
  have hmod (m : Nat) : m % 64 < 64 := Nat.mod_lt _ (by decide)
  unfold charBytes
  simp only [Nat.pow_eq, Nat.pow_zero, Nat.pow_one, Nat.div_one]
  split
  · rename_i h
    have hb : c.toNat.toUInt8.toNat = c.toNat := toNat_toUInt8 (by omega)
    simp [readChar?, hb, h, hself]
  · split
    · rename_i h₁ h
      have hb : (0xC0 + c.toNat / 64).toUInt8.toNat = 0xC0 + c.toNat / 64 := toNat_toUInt8 (by omega)
      have hvalue : c.toNat / 64 * 64 + c.toNat % 64 = c.toNat := by omega
      simp only [List.cons_append, List.nil_append, readChar?, hb]
      rw [if_neg (by omega), if_neg (by omega), if_pos (by omega), Nat.add_sub_cancel_left,
        tailValue_succ (hmod _), hvalue]
      simp only [tailValue]
      rw [if_pos ⟨by omega, hvalid⟩, hself]
    · split
      · rename_i h₁ h₂ h
        have hb : (0xE0 + c.toNat / 64 ^ 2).toUInt8.toNat = 0xE0 + c.toNat / 64 ^ 2 :=
          toNat_toUInt8 (by omega)
        have hvalue : (c.toNat / 64 ^ 2 * 64 + c.toNat / 64 % 64) * 64 + c.toNat % 64 = c.toNat := by omega
        simp only [List.cons_append, List.nil_append, readChar?, hb]
        rw [if_neg (by omega), if_neg (by omega), if_neg (by omega), if_pos (by omega),
          Nat.add_sub_cancel_left, tailValue_succ (hmod _), tailValue_succ (hmod _), hvalue]
        simp only [tailValue]
        rw [if_pos ⟨by omega, hvalid⟩, hself]
      · rename_i h₁ h₂ h₃
        have hb : (0xF0 + c.toNat / 64 ^ 3).toUInt8.toNat = 0xF0 + c.toNat / 64 ^ 3 :=
          toNat_toUInt8 (by omega)
        have hvalue : ((c.toNat / 64 ^ 3 * 64 + c.toNat / 64 ^ 2 % 64) * 64 + c.toNat / 64 % 64) * 64 +
            c.toNat % 64 = c.toNat := by omega
        simp only [List.cons_append, List.nil_append, readChar?, hb]
        rw [if_neg (by omega), if_neg (by omega), if_neg (by omega), if_neg (by omega), if_pos (by omega),
          Nat.add_sub_cancel_left, tailValue_succ (hmod _), tailValue_succ (hmod _), tailValue_succ (hmod _),
          hvalue]
        simp only [tailValue]
        rw [if_pos ⟨by omega, hvalid⟩, hself]

theorem charBytes_ne_nil (c : Char) : charBytes c ≠ [] := by
  unfold charBytes
  simp only
  split
  · simp
  · split
    · simp
    · split <;> simp

theorem length_le_bytes (t : Text) : t.length ≤ (bytes t).length := by
  induction t with
  | nil => simp
  | cons c t ih =>
    have := List.length_pos_iff.2 (charBytes_ne_nil c)
    simp only [bytes_cons, List.length_append, List.length_cons]
    omega

/-- A text is no longer than bytes with its own among them. -/
theorem length_le_of_within {t : Text} {bs : List UInt8} (h : bytes t <:+: bs) : t.length ≤ bs.length :=
  (length_le_bytes t).trans h.length_le

private theorem go_bytes {n : Nat} {t : Text} (h : t.length ≤ n) : ofBytes.go n (bytes t) = (t, []) := by
  induction t generalizing n with
  | nil => cases n <;> simp [ofBytes.go, readChar?]
  | cons c t ih =>
    cases n with
    | zero => simp at h
    | succ n => simp [ofBytes.go, readChar?_charBytes, ih (by simpa using h)]

/-- The bytes of a text are read as it. -/
@[simp] theorem ofBytes_bytes (t : Text) : ofBytes (bytes t) = (t, []) := go_bytes (length_le_bytes t)

@[simp] theorem ofBytes?_bytes (t : Text) : ofBytes? (bytes t) = some t := by simp [ofBytes?]

theorem bytes_injective {s t : Text} (h : bytes s = bytes t) : s = t := by
  have := congrArg ofBytes h
  simpa using this

/-! ### Order -/

/-- Of two characters the lower one has the lower bytes, whatever stands behind them. -/
private theorem charBytes_lt {c d : Char} (h : c < d) (x y : List UInt8) :
    charBytes c ++ x < charBytes d ++ y := by
  have hlt : c.toNat < d.toNat := h
  have hc := toNat_lt c
  have hd := toNat_lt d
  have htail (m : Nat) : (0x80 + m % 64).toUInt8.toNat = 0x80 + m % 64 := toNat_toUInt8 (by omega)
  have hone {m : Nat} (h : m < 0x80) : m.toUInt8.toNat = m := toNat_toUInt8 (by omega)
  have htwo {m : Nat} (h : m < 0x800) : (0xC0 + m / 64).toUInt8.toNat = 0xC0 + m / 64 := toNat_toUInt8 (by omega)
  have hthree {m : Nat} (h : m < 0x10000) : (0xE0 + m / 64 ^ 2).toUInt8.toNat = 0xE0 + m / 64 ^ 2 :=
    toNat_toUInt8 (by omega)
  have hfour {m : Nat} (h : m < 0x110000) : (0xF0 + m / 64 ^ 3).toUInt8.toNat = 0xF0 + m / 64 ^ 3 :=
    toNat_toUInt8 (by omega)
  unfold charBytes
  simp only [Nat.pow_eq, Nat.pow_zero, Nat.pow_one, Nat.div_one]
  split_ifs
  all_goals simp only [List.cons_append, List.nil_append, List.cons_lt_cons_iff, UInt8.lt_iff_toNat_lt,
    ← UInt8.toNat_inj, true_or, *]
  all_goals omega

/-- Texts stand in the order of their bytes. -/
theorem bytes_lt_bytes {s t : Text} (h : s < t) : bytes s < bytes t := by
  induction h with
  | @nil c t =>
    obtain ⟨b, bs, hb⟩ := List.exists_cons_of_ne_nil (charBytes_ne_nil c)
    rw [bytes_cons, hb]
    exact List.nil_lt_cons _ _
  | rel h => exact charBytes_lt h _ _
  | cons _ ih => exact List.append_left_lt ih

end ServerSplit.Text
