import ServerSplit.Json.Numbers
import ServerSplit.Proofs.Except
import ServerSplit.Proofs.Json.Strings

/-! Whole numbers of JSON read again. -/
namespace ServerSplit.Json

open Text (bytes)

theorem isDigit_iff {d : Char} : d.isDigit = true ↔ 48 ≤ d.toNat ∧ d.toNat ≤ 57 := by
  simp [Char.isDigit, UInt32.le_iff_toNat_le]

theorem ne_of_isDigit {c d : Char} (hd : d.isDigit = true) (hc : c.isDigit = false) : d ≠ c := by
  rintro rfl
  rw [hd] at hc
  cases hc

/-- Bytes that go on with no number. -/
def Settles (bs : List UInt8) : Prop :=
  ∀ b ∈ bs.head?, (Char.ofNat b.toNat).isDigit = false ∧ Char.ofNat b.toNat ∉ ['.', 'e', 'E']

namespace Settles

variable {bs : List UInt8} (h : Settles bs)

include h

theorem isDigitAt (i : Nat) : isDigitAt ⟨bs, i⟩ = false := by
  cases bs with
  | nil => rfl
  | cons b bs => exact (h b rfl).1

theorem skipDigits (i : Nat) : skipDigits ⟨bs, i⟩ = (0, ⟨bs, i⟩) := by
  have hnil : bs.takeWhile (fun b => 48 ≤ b && b ≤ 57) = [] := by
    cases bs with
    | nil => rfl
    | cons b bs =>
      refine List.takeWhile_cons_of_neg fun hb => ?_
      have hvalid : b.toNat.isValidChar := .inl (Nat.lt_trans b.toNat_lt (by decide))
      have hself : (Char.ofNat b.toNat).toNat = b.toNat := by
        unfold Char.ofNat
        rw [dif_pos hvalid]
        rfl
      have hdigit : (Char.ofNat b.toNat).isDigit = true := by
        rw [isDigit_iff, hself]
        simpa [UInt8.le_iff_toNat_le] using hb
      rw [(h b rfl).1] at hdigit
      cases hdigit
  rw [Json.skipDigits, hnil]
  rfl

theorem peek?_ne (i : Nat) {b : Char} (hb : b ∈ ['.', 'e', 'E']) : (⟨bs, i⟩ : Cursor).peek? ≠ some b := by
  intro hpeek
  obtain ⟨x, hx, rfl⟩ := Option.map_eq_some_iff.1 hpeek
  exact (h x hx).2 hb

end Settles

/-! ### Digits -/

theorem le_ofDigitChars (b : Nat) (hb : 0 < b) (ds : Text) (value : Nat) : value ≤ b.ofDigitChars ds value := by
  induction ds generalizing value with
  | nil => exact Nat.le_refl _
  | cons d ds ih =>
    rw [Nat.ofDigitChars_cons]
    have := Nat.le_mul_of_pos_left value hb
    exact Nat.le_trans (by omega) (ih _)

/-- Digits are read up to their end, where their value is within the bound. -/
theorem readDigits_digits {bound n value count : Nat} {ds : Text} (hds : ∀ d ∈ ds, d.isDigit = true)
    (hbound : Nat.ofDigitChars 10 ds value ≤ bound) (hn : ds.length ≤ n) {rest : List UInt8}
    (hrest : Settles rest) (i : Nat) :
    readDigits bound n value count ⟨bytes ds ++ rest, i⟩ =
      (Nat.ofDigitChars 10 ds value, count + ds.length, ⟨rest, i + ds.length⟩) := by
  induction ds generalizing n value count i with
  | nil =>
    cases n with
    | zero => rfl
    | succ n =>
      cases rest with
      | nil => rfl
      | cons b bs => simp [readDigits, (hrest b rfl).1]
  | cons d ds ih =>
    cases n with
    | zero => simp at hn
    | succ n =>
      have hd := hds d (by simp)
      have hascii : d.toNat < 0x80 := by
        have := isDigit_iff.1 hd
        omega
      have hstep : value * 10 + (d.toNat - 48) = 10 * value + (d.toNat - '0'.toNat) := by
        rw [Nat.mul_comm]
        rfl
      rw [Nat.ofDigitChars_cons] at hbound
      have hle := Nat.le_trans (le_ofDigitChars 10 (by decide) ds _) hbound
      rw [Text.bytes_cons, Text.charBytes_ascii hascii]
      simp only [readDigits, List.cons_append, List.nil_append, Cursor.peek?_cons, ofNat_toUInt8 hascii, hd,
        if_true, hstep, if_neg (Nat.not_lt.2 hle), Cursor.skip_one_cons]
      rw [ih (fun e he => hds e (by simp [he])) hbound (by simpa using hn), Nat.ofDigitChars_cons]
      simp only [List.length_cons, Nat.add_assoc, Nat.add_comm 1]

/-- Only zero has a zero as its first digit. -/
theorem eq_nil_of_toDigits {n : Nat} {ds : Text} (h : Nat.toDigits 10 n = '0' :: ds) : ds = [] := by
  induction n using Nat.strongRecOn generalizing ds with
  | _ n ih =>
    rw [Nat.toDigits_eq_if (by decide)] at h
    split at h
    · exact (List.cons.inj h).2.symm
    · rename_i hn
      obtain ⟨d, es, hes⟩ := List.exists_cons_of_ne_nil (Nat.toDigits_ne_nil (n := n / 10) (b := 10))
      rw [hes, List.cons_append] at h
      obtain ⟨rfl, _⟩ := List.cons.inj h
      have hnil := ih (n / 10) (by omega) hes
      have hzero : n / 10 = 0 := by
        rw [← Nat.ofDigitChars_ten_toDigits (n := n / 10), hes, hnil]
        rfl
      omega

/-- Digits are passed over up to their end. -/
theorem skipDigits_digits {ds : Text} (hds : ∀ d ∈ ds, d.isDigit = true) {rest : List UInt8} (hrest : Settles rest)
    (i : Nat) : (skipDigits ⟨bytes ds ++ rest, i⟩).2 = ⟨rest, i + ds.length⟩ := by
  have hascii : ∀ d ∈ ds, d.toNat < 0x80 := fun d hd => by
    have := isDigit_iff.1 (hds d hd)
    omega
  have hall : ∀ b ∈ bytes ds, (decide (48 ≤ b) && decide (b ≤ 57)) = true := by
    intro b hb
    obtain ⟨d, hd, hb⟩ := List.mem_flatMap.1 hb
    rw [Text.charBytes_ascii (hascii d hd), List.mem_singleton] at hb
    have := isDigit_iff.1 (hds d hd)
    simp [hb, UInt8.le_iff_toNat_le, Text.toNat_toUInt8 (show d.toNat < 256 by omega), this]
  have hnone : rest.takeWhile (fun b => 48 ≤ b && b ≤ 57) = [] := by
    have hzero : (rest.takeWhile fun b => 48 ≤ b && b ≤ 57).length = 0 := congrArg Prod.fst (hrest.skipDigits 0)
    exact List.length_eq_zero_iff.1 hzero
  rw [skipDigits, List.takeWhile_append_of_pos hall, hnone, List.append_nil, (map_bytes hascii).2,
    Cursor.skip_append (map_bytes hascii).2]

/-- The digits of a number: they begin with a zero only if it stands alone. -/
theorem exists_ofNat (n : Nat) : ∃ d ds, Text.ofNat n = d :: ds ∧ (∀ e ∈ d :: ds, e.isDigit = true) ∧
    (d = '0' → ds = []) := by
  obtain ⟨d, ds, hds⟩ := List.exists_cons_of_ne_nil (Nat.toDigits_ne_nil (n := n) (b := 10))
  refine ⟨d, ds, hds, fun e he => ?_, ?_⟩
  · rw [← hds] at he
    exact Nat.isDigit_of_mem_toDigits (by decide) (by decide) he
  · rintro rfl
    exact eq_nil_of_toDigits hds

/-- A digit at the head of a text. -/
theorem peek?_digit {d : Char} (hd : d.isDigit = true) (t : Text) (rest : List UInt8) (i : Nat) :
    (⟨bytes (d :: t) ++ rest, i⟩ : Cursor).peek? = some d ∧
      (⟨bytes (d :: t) ++ rest, i⟩ : Cursor).skip 1 = ⟨bytes t ++ rest, i + 1⟩ := by
  have hascii : d.toNat < 0x80 := by
    have := isDigit_iff.1 hd
    omega
  rw [Text.bytes_cons, Text.charBytes_ascii hascii]
  exact ⟨congrArg some (ofNat_toUInt8 hascii), rfl⟩

/-- A whole number of 64 bits is read up to its end. -/
theorem readNumber_digits {n : Nat} (h : n ≤ maxWhole) (positive : Bool)
    (hneg : positive = false → 0 < n ∧ n ≤ Nat.pow 2 63) {rest : List UInt8} (hrest : Settles rest) (i : Nat) :
    ∃ j, readNumber positive ⟨bytes (Text.ofNat n) ++ rest, i⟩ =
      .ok (.whole (if positive then n else -n), ⟨rest, j⟩) := by
  obtain ⟨d, ds, hds, hdigits, hzero⟩ := exists_ofNat n
  have hvalue : Nat.ofDigitChars 10 (d :: ds) 0 = n := hds ▸ Nat.ofDigitChars_ten_toDigits
  obtain ⟨hpeek, hskip⟩ := peek?_digit (hdigits d (by simp)) ds rest i
  have hread : digitsUpTo maxWhole 0 ⟨bytes (d :: ds) ++ rest, i⟩ =
      (n, (d :: ds).length, ⟨rest, i + (d :: ds).length⟩) := by
    have hlength : (d :: ds).length ≤ (bytes (d :: ds) ++ rest).length :=
      Text.length_le_of_within ⟨[], rest, rfl⟩
    rw [digitsUpTo, readDigits_digits hdigits (hvalue.symm ▸ h) hlength hrest, hvalue, Nat.zero_add]
  have hlone : ¬ (d = '0' ∧ isDigitAt ⟨bytes ds ++ rest, i + 1⟩ = true) := by
    rintro ⟨rfl, hnext⟩
    rw [hzero rfl, Text.bytes_nil, List.nil_append, hrest.isDigitAt] at hnext
    cases hnext
  refine ⟨i + (d :: ds).length, ?_⟩
  simp only [hds, readNumber, hpeek, hskip, hdigits d (by simp), Bool.not_true, Bool.false_eq_true, if_false,
    if_neg hlone, hread, hrest.skipDigits]
  split
  · rename_i hb
    exact (hrest.peek?_ne _ (by simp) hb).elim
  · rename_i hb
    exact (hrest.peek?_ne _ (by simp) hb).elim
  · rename_i hb
    exact (hrest.peek?_ne _ (by simp) hb).elim
  · cases positive with
    | true => rfl
    | false =>
      obtain ⟨hpos, hmax⟩ := hneg rfl
      have hfits : ¬ (n = 0 ∨ Nat.pow 2 63 < n) := by omega
      simp only [ne_eq, not_true, if_false, Bool.false_eq_true, if_neg hfits]
      rfl

/-- A whole number is passed over up to its end. -/
theorem skipNumber_digits (n : Nat) {rest : List UInt8} (hrest : Settles rest) (i : Nat) :
    ∃ j, skipNumber ⟨bytes (Text.ofNat n) ++ rest, i⟩ = .ok ⟨rest, j⟩ := by
  obtain ⟨d, ds, hds, hdigits, hzero⟩ := exists_ofNat n
  obtain ⟨hpeek, hskip⟩ := peek?_digit (hdigits d (by simp)) ds rest i
  have hzeroAlone (hd : d = '0') : isDigitAt ⟨bytes ds ++ rest, i + 1⟩ = false := by
    rw [hzero hd, Text.bytes_nil, List.nil_append, hrest.isDigitAt]
  by_cases hd : d = '0'
  on_goal 1 =>
    refine ⟨i + 1, ?_⟩
    simp only [hds, skipNumber, hpeek, hskip, if_pos hd, hzeroAlone hd, Bool.false_eq_true, if_false]
    simp only [hzero hd, Text.bytes_nil, List.nil_append]
  on_goal 2 =>
    refine ⟨i + (d :: ds).length, ?_⟩
    simp only [hds, skipNumber, hpeek, hskip, if_neg hd, hdigits d (by simp), if_true,
      skipDigits_digits hdigits hrest]
  -- What follows goes on with no fraction and no exponent.
  all_goals
    simp only [ok_bind]
    split
    · rename_i hb
      exact (hrest.peek?_ne _ (by simp) hb).elim
    · split
      · rename_i hb
        exact (hrest.peek?_ne _ (by simp) hb).elim
      · rename_i hb
        exact (hrest.peek?_ne _ (by simp) hb).elim
      · rfl

end ServerSplit.Json
