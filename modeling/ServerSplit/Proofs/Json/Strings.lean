import ServerSplit.Json.Strings
import ServerSplit.Json.Quoted
import ServerSplit.Proofs.Json.Grammar
import ServerSplit.Proofs.Text.Utf8

/-! Strings of JSON read again. What is read behind the opening quote of a quoted text is that text, and
reading stops behind its closing quote whatever follows. -/
namespace ServerSplit.Json

open Text (bytes charBytes)

/-! ### Places in bytes -/

namespace Cursor

@[simp] theorem peek?_cons (b : UInt8) (bs : List UInt8) (i : Nat) :
    (⟨b :: bs, i⟩ : Cursor).peek? = some (Char.ofNat b.toNat) := rfl

@[simp] theorem peek?_nil (i : Nat) : (⟨[], i⟩ : Cursor).peek? = none := rfl

@[simp] theorem skip_one_cons (b : UInt8) (bs : List UInt8) (i : Nat) :
    (⟨b :: bs, i⟩ : Cursor).skip 1 = ⟨bs, i + 1⟩ := rfl

theorem skip_append {w : List UInt8} {n : Nat} (h : w.length = n) (bs : List UInt8) (i : Nat) :
    (⟨w ++ bs, i⟩ : Cursor).skip n = ⟨bs, i + n⟩ := by
  subst h
  simp [skip]

end Cursor

/-- A reader that takes the bytes of a text for `x`, wherever they stand and whatever follows. -/
def Decodes {α : Type} (read : Reads α) (t : Text) (x : α) : Prop :=
  ∀ rest i, ∃ j, read ⟨bytes t ++ rest, i⟩ = .ok (x, ⟨rest, j⟩)

/-! ### Characters -/

/-- Characters that stand for themselves in a string. -/
def isBare (c : Char) : Bool := (shortEscape? c).isNone && decide (0x20 ≤ c.toNat)

theorem isBare_iff {c : Char} : isBare c = true ↔ 0x20 ≤ c.toNat ∧ c ≠ '"' ∧ c ≠ '\\' := by
  rw [isBare, Bool.and_eq_true, decide_eq_true_eq, Option.isNone_iff_eq_none, and_comm, and_congr_right_iff]
  intro hlow
  have hne {d : Char} (hd : d.toNat < 0x20) : c ≠ d := by
    rintro rfl
    omega
  simp [shortEscape?, hne (d := '\x08') (by decide), hne (d := '\t') (by decide), hne (d := '\n') (by decide),
    hne (d := '\x0c') (by decide), hne (d := '\r') (by decide)]
  split_ifs <;> simp [*]

theorem escaped_of_isBare {c : Char} (h : isBare c = true) : escaped c = [c] := by
  simp only [isBare, Bool.and_eq_true, Option.isNone_iff_eq_none, decide_eq_true_eq] at h
  simp [escaped, h.1, Nat.not_lt.2 h.2]

theorem ofNat_toUInt8 {c : Char} (h : c.toNat < 0x80) : Char.ofNat c.toNat.toUInt8.toNat = c := by
  rw [Text.toNat_toUInt8 (by omega), Char.ofNat_toNat]

/-- The bytes of a text of the first 128 characters are these characters. -/
theorem map_bytes {t : Text} (h : ∀ c ∈ t, c.toNat < 0x80) :
    (bytes t).map (fun b => Char.ofNat b.toNat) = t ∧ (bytes t).length = t.length := by
  induction t with
  | nil => exact ⟨rfl, rfl⟩
  | cons c t ih =>
    obtain ⟨hmap, hlength⟩ := ih fun d hd => h d (by simp [hd])
    have hc := h c (by simp)
    rw [Text.bytes_cons, Text.charBytes_ascii hc]
    simp only [List.cons_append, List.nil_append, List.map_cons, ofNat_toUInt8 hc, hmap, List.length_cons,
      hlength, and_self]

theorem isPlain_of_mem_charBytes {c : Char} (h : isBare c = true) {b : UInt8} (hb : b ∈ charBytes c) :
    isPlain b = true := by
  simp only [isBare, Bool.and_eq_true, Option.isNone_iff_eq_none, decide_eq_true_eq] at h
  obtain ⟨hshort, hlow⟩ := h
  simp only [isPlain, Bool.and_eq_true, decide_eq_true_eq, ne_eq, ← UInt8.toNat_inj, UInt8.le_iff_toNat_le,
    UInt8.reduceToNat]
  by_cases hascii : c.toNat < 0x80
  · rw [Text.charBytes_ascii hascii, List.mem_singleton] at hb
    rw [hb, Text.toNat_toUInt8 (by omega)]
    have hquote : c.toNat ≠ 34 := by
      intro he
      rw [← Char.ofNat_toNat c, he] at hshort
      exact absurd hshort (by decide)
    have hslash : c.toNat ≠ 92 := by
      intro he
      rw [← Char.ofNat_toNat c, he] at hshort
      exact absurd hshort (by decide)
    exact ⟨⟨by simpa using hquote, by simpa using hslash⟩, hlow⟩
  · have := Text.le_of_mem_charBytes (Nat.not_lt.1 hascii) hb
    refine ⟨⟨?_, ?_⟩, ?_⟩ <;> omega

theorem takeWhile_isPlain {t : Text} (h : ∀ c ∈ t, isBare c = true) {b : UInt8} (hb : isPlain b = false)
    (bs : List UInt8) : (bytes t ++ b :: bs).takeWhile isPlain = bytes t := by
  have hall : ∀ b ∈ bytes t, isPlain b = true := by
    intro b hb
    obtain ⟨c, hc, hb⟩ := List.mem_flatMap.1 hb
    exact isPlain_of_mem_charBytes (h c hc) hb
  rw [List.takeWhile_append_of_pos hall, List.takeWhile_cons_of_neg (by simp [hb]), List.append_nil]

/-! ### Escapes -/

private theorem digitValue?_digitChar : ∀ n < 16,
    (Text.digitValue? n.digitChar = some n ∧ n.digitChar.toNat < 0x80) ∧
      Text.digitValue? n.digitChar.toUpper = some n ∧ n.digitChar.toUpper.toNat < 0x80 := by
  decide

theorem HexDigit.value {d : Char} {n : Nat} (h : HexDigit d n) :
    n < 16 ∧ Text.digitValue? d = some n ∧ d.toNat < 0x80 := by
  cases h with
  | lower h => exact ⟨h, (digitValue?_digitChar n h).1⟩
  | upper h => exact ⟨h, (digitValue?_digitChar n h).2⟩

theorem readHex_hex {ds : Text} {n : Nat} (h : Hex ds n) : Decodes readHex ds n := by
  intro rest i
  cases h with
  | @four a b c d k l m n ha hb hc hd =>
    obtain ⟨hk, hka, haa⟩ := ha.value
    obtain ⟨hl, hlb, hba⟩ := hb.value
    obtain ⟨hm, hmc, hca⟩ := hc.value
    obtain ⟨hn, hnd, hda⟩ := hd.value
    have hascii : ∀ x ∈ [a, b, c, d], x.toNat < 0x80 := by simp [haa, hba, hca, hda]
    have hmap := (map_bytes hascii).1
    have hlength : (bytes [a, b, c, d]).length = 4 := (map_bytes hascii).2
    have htake : (bytes [a, b, c, d] ++ rest).take 4 = bytes [a, b, c, d] := List.take_left' hlength
    have hvalue : Text.toNat? 16 [a, b, c, d] = some (((k * 16 + l) * 16 + m) * 16 + n) := by
      simp [Text.toNat?, hka, hlb, hmc, hnd, hk, hl, hm, hn]
    refine ⟨i + 4, ?_⟩
    simp only [readHex, htake, hlength, hmap, hvalue, Cursor.skip_append hlength]
    rfl

private theorem unescape?_of_mem {e c : Char} (h : (e, c) ∈ shortEscapes) :
    unescape? e = some c ∧ e ≠ 'u' ∧ e.toNat < 0x80 := by
  simp only [shortEscapes, List.mem_cons, List.not_mem_nil, or_false, Prod.mk.injEq] at h
  rcases h with ⟨rfl, rfl⟩ | ⟨rfl, rfl⟩ | ⟨rfl, rfl⟩ | ⟨rfl, rfl⟩ | ⟨rfl, rfl⟩ | ⟨rfl, rfl⟩ | ⟨rfl, rfl⟩ |
    ⟨rfl, rfl⟩ <;> decide

theorem readLowSurrogate_hex {es : Text} {m n : Nat} (h : Hex es n) (hn : 0xDC00 ≤ n ∧ n ≤ 0xDFFF) :
    Decodes (readLowSurrogate m) ('\\' :: 'u' :: es)
      (Char.ofNat ((m - 0xD800) * 0x400 + (n - 0xDC00) + 0x10000)) := by
  intro rest i
  obtain ⟨j, hj⟩ := readHex_hex h rest (i + 1 + 1)
  refine ⟨j, ?_⟩
  change (readHex ⟨bytes es ++ rest, i + 1 + 1⟩ >>= fun p => if 0xDC00 ≤ p.1 ∧ p.1 ≤ 0xDFFF then
    Except.ok (Char.ofNat ((m - 0xD800) * 0x400 + (p.1 - 0xDC00) + 0x10000), p.2) else _) = _
  rw [hj]
  exact if_pos hn

/-- What stands behind the backslash of an escaped character is read as that character. -/
theorem readEscape_escape {e : Text} {c : Char} (h : Escape e c) : Decodes readEscape e c := by
  intro rest i
  have hcode {ds : Text} {m : Nat} (hm : Hex ds m) (rest : List UInt8) : ∃ j,
      readEscape ⟨bytes ('u' :: ds) ++ rest, i⟩ =
        if 0xDC00 ≤ m ∧ m ≤ 0xDFFF then Cursor.fail ⟨rest, j⟩ .loneSurrogate
        else if 0xD800 ≤ m ∧ m ≤ 0xDBFF then readLowSurrogate m ⟨rest, j⟩
        else .ok (Char.ofNat m, ⟨rest, j⟩) := by
    obtain ⟨j, hj⟩ := readHex_hex hm rest (i + 1)
    refine ⟨j, ?_⟩
    change (readHex ⟨bytes ds ++ rest, i + 1⟩ >>= _) = _
    rw [hj]
    rfl
  cases h with
  | short h =>
    obtain ⟨hback, hu, hascii⟩ := unescape?_of_mem h
    refine ⟨i + 1, ?_⟩
    simp only [readEscape, Text.bytes_cons, Text.bytes_nil, Text.charBytes_ascii hascii, List.append_nil,
      List.cons_append, List.nil_append, Cursor.peek?_cons, ofNat_toUInt8 hascii, Cursor.skip_one_cons, hback]
    rfl
  | code h hn =>
    obtain ⟨j, hj⟩ := hcode h rest
    exact ⟨j, by rw [hj, if_neg (by omega), if_neg (by omega)]⟩
  | @pair ds es m n h hm h' hn =>
    obtain ⟨j, hj⟩ := hcode h (bytes ('\\' :: 'u' :: es) ++ rest)
    obtain ⟨k, hk⟩ := readLowSurrogate_hex (m := m) h' hn rest j
    refine ⟨k, ?_⟩
    rw [← List.cons_append, Text.bytes_append, List.append_assoc, hj, if_neg (by omega), if_pos hm, hk]

/-! ### Strings -/

/-- A string is a run of characters that stand for themselves, and then its end or an escape. -/
theorem Quotes.run {t s : Text} (h : Quotes t s) : ∃ r : Text, (∀ c ∈ r, isBare c = true) ∧
    ((t = r ++ ['"'] ∧ s = r) ∨
      ∃ e c u v, Escape e c ∧ Quotes u v ∧ t = r ++ '\\' :: (e ++ u) ∧ s = r ++ c :: v) := by
  induction h with
  | close => exact ⟨[], nofun, .inl ⟨rfl, rfl⟩⟩
  | @char w t s c h hs ih =>
    cases h with
    | escape he => exact ⟨[], nofun, .inr ⟨_, c, t, s, he, hs, rfl, rfl⟩⟩
    | self hlow hc =>
      obtain ⟨r, hr, hend⟩ := ih
      refine ⟨c :: r, List.forall_mem_cons.2 ⟨isBare_iff.2 ⟨hlow, hc⟩, hr⟩, ?_⟩
      rcases hend with ⟨rfl, rfl⟩ | ⟨e, d, u, v, he, hu, rfl, rfl⟩
      · exact .inl ⟨rfl, rfl⟩
      · exact .inr ⟨e, d, u, v, he, hu, rfl, rfl⟩

/-- The pieces of a string have its text. -/
private theorem readPieces_quotes {t s : Text} (h : Quotes t s) {n : Nat} (hn : t.length ≤ n) (rest : List UInt8)
    (i : Nat) : ∃ ps j, readPieces n ⟨bytes t ++ rest, i⟩ = .ok (ps, ⟨rest, j⟩) ∧ pieceText ps = .ok s := by
  induction n generalizing t s i with
  | zero =>
    obtain ⟨r, -, ⟨rfl, -⟩ | ⟨e, c, u, v, -, -, rfl, -⟩⟩ := h.run <;> simp at hn
  | succ n ih =>
    obtain ⟨r, hr, hend⟩ := h.run
    have hpiece (ps : List Piece) (u : Text) (hps : pieceText ps = .ok u) :
        pieceText (if (bytes r).isEmpty then ps else .raw i (bytes r) :: ps) = .ok (r ++ u) := by
      split
      · rename_i hnil
        have : r = [] := Text.bytes_injective (List.isEmpty_iff.1 hnil)
        rw [this, hps, List.nil_append]
      · rw [pieceText, Text.ofBytes_bytes, hps]
        rfl
    rcases hend with ⟨rfl, rfl⟩ | ⟨e, c, u, v, he, hu, rfl, rfl⟩
    · have hps := hpiece [] [] rfl
      rw [List.append_nil] at hps
      refine ⟨_, i + (bytes s).length + 1, ?_, hps⟩
      have hquote : bytes ['"'] = [34] := rfl
      simp only [Text.bytes_append, hquote, List.append_assoc, List.cons_append, List.nil_append, readPieces]
      rw [takeWhile_isPlain hr (by decide), Cursor.skip_append rfl]
      rfl
    · have hslash : charBytes '\\' = [92] := rfl
      obtain ⟨j, hj⟩ := readEscape_escape he (bytes u ++ rest) (i + (bytes r).length + 1)
      have hlength : u.length ≤ n := by
        simp only [List.length_append, List.length_cons] at hn
        omega
      obtain ⟨ps, k, hk, hps⟩ := ih hu hlength j
      refine ⟨_, k, ?_, hpiece (.char c :: ps) (c :: v) (by rw [pieceText, hps]; rfl)⟩
      simp only [readPieces, Text.bytes_append, Text.bytes_cons, hslash, List.cons_append, List.nil_append,
        List.append_assoc]
      rw [takeWhile_isPlain hr (by decide), Cursor.skip_append rfl]
      change (readEscape _ >>= fun r => readPieces n r.2 >>= fun s => Except.ok (_, s.2)) = _
      rw [Cursor.skip_one_cons, hj]
      change (readPieces n _ >>= fun s => Except.ok (_, s.2)) = _
      rw [hk]
      rfl

/-- A string is read up to its closing quote, in whichever way it is written. -/
theorem readString_quotes {t s : Text} (h : Quotes t s) : Decodes readString t s := by
  intro rest i
  have hlength : t.length ≤ (bytes t ++ rest).length + 1 :=
    Nat.le_succ_of_le (Text.length_le_of_within ⟨[], rest, rfl⟩)
  obtain ⟨ps, j, hj, hps⟩ := readPieces_quotes h hlength rest i
  refine ⟨j, ?_⟩
  simp only [readString, hj]
  change (pieceText ps >>= fun t => Except.ok (t, _)) = _
  rw [hps]
  rfl

/-! ### Strings that are passed over -/

/-- A reader that passes over the bytes of a text, wherever they stand and whatever follows. -/
def Skips (skip : Cursor → Except Fault Cursor) (t : Text) : Prop :=
  ∀ rest i, ∃ j, skip ⟨bytes t ++ rest, i⟩ = .ok ⟨rest, j⟩

theorem skipEscape_hex {ds : Text} {n : Nat} (h : Hex ds n) : Skips skipEscape ('u' :: ds) := by
  intro rest i
  obtain ⟨j, hj⟩ := readHex_hex h rest (i + 1)
  refine ⟨j, ?_⟩
  change (readHex ⟨bytes ds ++ rest, i + 1⟩).map (·.2) = _
  rw [hj]
  rfl

theorem skipEscape_short {e c : Char} (h : (e, c) ∈ shortEscapes) : Skips skipEscape [e] := by
  intro rest i
  obtain ⟨hback, hu, hascii⟩ := unescape?_of_mem h
  refine ⟨i + 1, ?_⟩
  simp only [skipEscape, Text.bytes_cons, Text.bytes_nil, Text.charBytes_ascii hascii, List.append_nil,
    List.cons_append, List.nil_append, Cursor.peek?_cons, ofNat_toUInt8 hascii, Cursor.skip_one_cons, hback,
    Option.isSome_some, if_true]

/-- Characters that stand for themselves and an escape behind them are passed over. -/
theorem skipString_run {r e : Text} (hr : ∀ c ∈ r, isBare c = true) (he : Skips skipEscape e) (u : Text) (n : Nat)
    (rest : List UInt8) (i : Nat) : ∃ j, skipString (n + 1) ⟨bytes (r ++ '\\' :: (e ++ u)) ++ rest, i⟩ =
      skipString n ⟨bytes u ++ rest, j⟩ := by
  have hslash : charBytes '\\' = [92] := rfl
  obtain ⟨j, hj⟩ := he (bytes u ++ rest) (i + (bytes r).length + 1)
  refine ⟨j, ?_⟩
  simp only [skipString, Text.bytes_append, Text.bytes_cons, hslash, List.cons_append, List.nil_append,
    List.append_assoc]
  rw [takeWhile_isPlain hr (by decide), Cursor.skip_append rfl]
  change (skipEscape _).bind (skipString n) = _
  rw [Cursor.skip_one_cons, hj]
  rfl

/-- A string is passed over up to its closing quote. -/
theorem skipString_quotes {t s : Text} (h : Quotes t s) {n : Nat} (hn : t.length ≤ n) : Skips (skipString n) t := by
  induction n using Nat.strongRecOn generalizing t s with
  | _ n ih =>
    intro rest i
    obtain ⟨r, hr, ⟨rfl, rfl⟩ | ⟨e, c, u, v, he, hu, rfl, rfl⟩⟩ := h.run
    · obtain ⟨n, rfl⟩ := Nat.exists_eq_succ_of_ne_zero (n := n) (by rintro rfl; simp at hn)
      have hquote : bytes ['"'] = [34] := rfl
      refine ⟨i + (bytes s).length + 1, ?_⟩
      simp only [skipString, Text.bytes_append, hquote, List.append_assoc, List.cons_append, List.nil_append]
      rw [takeWhile_isPlain hr (by decide), Cursor.skip_append rfl]
      rfl
    · simp only [List.length_append, List.length_cons] at hn
      cases he with
      | short he =>
        obtain ⟨n, rfl⟩ := Nat.exists_eq_succ_of_ne_zero (n := n) (by omega)
        obtain ⟨j, hj⟩ := skipString_run hr (skipEscape_short he) u n rest i
        rw [hj]
        exact ih n (by omega) hu (by omega) rest j
      | code he _ =>
        obtain ⟨n, rfl⟩ := Nat.exists_eq_succ_of_ne_zero (n := n) (by omega)
        obtain ⟨j, hj⟩ := skipString_run hr (skipEscape_hex he) u n rest i
        rw [hj]
        exact ih n (by omega) hu (by omega) rest j
      | @pair ds es _ _ he _ he' _ =>
        simp only [List.length_append, List.length_cons] at hn
        obtain ⟨n, rfl⟩ := Nat.exists_eq_add_of_le' (show 2 ≤ n by omega)
        -- The codes of a pair are passed over as two escapes.
        obtain ⟨j, hj⟩ := skipString_run hr (skipEscape_hex he) ([] ++ '\\' :: ('u' :: es ++ u)) (n + 1) rest i
        obtain ⟨k, hk⟩ := skipString_run (r := []) nofun (skipEscape_hex he') u n rest j
        obtain ⟨m, hm⟩ := ih n (by omega) hu (by omega) rest k
        refine ⟨m, ?_⟩
        rw [← hm, ← hk, ← hj]
        simp only [List.cons_append, List.append_assoc, List.nil_append]

/-! ### Strings as they are written -/

theorem hex_hex {n : Nat} (h : n < 0x10000) : Hex (Text.hex 4 n) n := by
  have hdigit (m : Nat) : HexDigit (Text.digit (m % 16)) (m % 16) := .lower (Nat.mod_lt _ (by decide))
  have hfour := Hex.four (hdigit (n / 4096)) (hdigit (n / 256)) (hdigit (n / 16)) (hdigit (n / 1))
  have hvalue : ((n / 4096 % 16 * 16 + n / 256 % 16) * 16 + n / 16 % 16) * 16 + n / 1 % 16 = n := by omega
  rw [hvalue] at hfour
  exact hfour

theorem spells_escaped (c : Char) : Spells (escaped c) c := by
  cases hbare : isBare c with
  | true =>
    obtain ⟨hlow, hc⟩ := isBare_iff.1 hbare
    rw [escaped_of_isBare hbare]
    exact .self hlow hc
  | false =>
    cases hshort : shortEscape? c with
    | some e =>
      have hmem : (e, c) ∈ shortEscapes := by
        unfold shortEscape? at hshort
        split_ifs at hshort <;> cases hshort <;> subst c <;> decide
      simpa [escaped, hshort] using Spells.escape (.short hmem)
    | none =>
      have hlow : c.toNat < 0x20 := by simpa [isBare, hshort] using hbare
      have hcode := Spells.escape (.code (hex_hex (n := c.toNat) (by omega)) (by omega))
      rw [Char.ofNat_toNat] at hcode
      simpa [escaped, hshort, hlow] using hcode

theorem quotes_escaped (t : Text) : Quotes (t.flatMap escaped ++ ['"']) t := by
  induction t with
  | nil => exact .close
  | cons c t ih =>
    rw [List.flatMap_cons, List.append_assoc]
    exact .char (spells_escaped c) ih

/-- A string is read up to its closing quote. -/
theorem readString_quoted (t : Text) : Decodes readString (t.flatMap escaped ++ ['"']) t :=
  readString_quotes (quotes_escaped t)

/-- Controls do not stand in escapes. -/
theorem not_mem_escaped {d : Char} (hd : d.toNat < 0x20) (c : Char) : d ∉ escaped c := by
  have hhex : ∀ n < 0x20, (Text.hex 4 n).all (0x20 ≤ ·.toNat) = true := by decide
  have hslash : d ≠ '\\' := by
    rintro rfl
    exact absurd hd (by decide)
  unfold escaped
  split
  · rename_i e he
    have hlow : 0x20 ≤ e.toNat := by
      unfold shortEscape? at he
      split_ifs at he <;> cases he <;> decide
    have hne : d ≠ e := by
      rintro rfl
      omega
    simp [hslash, hne]
  · rename_i hnone
    split
    · rename_i hlow
      have hu : d ≠ 'u' := by
        rintro rfl
        exact absurd hd (by decide)
      have hmem : d ∉ Text.hex 4 c.toNat := fun h =>
        Nat.not_le.2 hd (of_decide_eq_true (List.all_eq_true.1 (hhex _ hlow) d h))
      simp [hslash, hu, hmem]
    · rename_i hlow
      rw [List.mem_singleton]
      rintro rfl
      exact hlow hd

/-- A string of JSON holds no controls, so it stands on one line. -/
theorem not_mem_quoted {d : Char} (hd : d.toNat < 0x20) (t : Text) : d ∉ quoted t := by
  have hquote : d ≠ '"' := by
    rintro rfl
    exact absurd hd (by decide)
  simp [quoted, not_mem_escaped hd, hquote]

/-- A quoted text ends by itself: no other quoted text begins like it. -/
theorem quoted_append_inj {s t u v : Text} (h : quoted s ++ u = quoted t ++ v) : s = t ∧ u = v := by
  have htail : s.flatMap escaped ++ ['"'] ++ u = t.flatMap escaped ++ ['"'] ++ v := by
    simpa [quoted] using h
  obtain ⟨i, hi⟩ := readString_quoted s (bytes u) 0
  obtain ⟨j, hj⟩ := readString_quoted t (bytes v) 0
  rw [← Text.bytes_append, htail, Text.bytes_append, hj] at hi
  obtain ⟨rfl, hrest⟩ := Prod.mk.inj (Except.ok.inj hi)
  exact ⟨rfl, (Text.bytes_injective (Cursor.mk.inj hrest).1).symm⟩

end ServerSplit.Json
