import Mathlib.Data.List.TakeWhile
import ServerSplit.Json.Read
import ServerSplit.Proofs.Json.Numbers

/-! The parts between the values of a list or an object: brackets, commas, keys and colons are read behind any
blanks. -/
namespace ServerSplit.Json

open Text (bytes)

/-! ### Characters at a place -/

/-- Characters of one byte that are no blanks. -/
def Solid (c : Char) : Prop := c.toNat < 0x80 ∧ Cursor.isSpace c.toNat.toUInt8 = false

instance (c : Char) : Decidable (Solid c) := inferInstanceAs (Decidable (_ ∧ _))

theorem solid_of_isDigit {c : Char} (h : c.isDigit = true) : Solid c := by
  have hc := isDigit_iff.1 h
  have hb : c.toNat.toUInt8.toNat = c.toNat := Text.toNat_toUInt8 (by omega)
  refine ⟨by omega, ?_⟩
  simp only [Cursor.isSpace, Bool.or_eq_false_iff, decide_eq_false_iff_not, ← UInt8.toNat_inj, hb]
  simp only [UInt8.reduceToNat]
  omega

/-- Blanks are bytes that are passed over. -/
theorem Blanks.bytes {g : Text} (hg : Blanks g) :
    (∀ b ∈ bytes g, Cursor.isSpace b = true) ∧ (Text.bytes g).length = g.length := by
  have hblank : ∀ c ∈ [' ', '\n', '\t', '\r'], c.toNat < 0x80 ∧ Cursor.isSpace c.toNat.toUInt8 = true := by
    simp [Cursor.isSpace]
  refine ⟨fun b hb => ?_, (map_bytes fun c hc => (hblank c (hg c hc)).1).2⟩
  obtain ⟨c, hc, hb⟩ := List.mem_flatMap.1 hb
  rw [Text.charBytes_ascii (hblank c (hg c hc)).1, List.mem_singleton] at hb
  rw [hb]
  exact (hblank c (hg c hc)).2

/-- The fuel at a place is enough for every text that stands behind it. -/
theorem length_le_fuelAt {t : Text} {bs : List UInt8} (h : bytes t <:+: bs) (i : Nat) :
    t.length ≤ fuelAt ⟨bs, i⟩ := by
  have := Text.length_le_of_within h
  simp only [fuelAt]
  omega

namespace Cursor

variable {c : Char} {g : Text} (t : Text) (rest : List UInt8) (i : Nat)

theorem skip_char (h : c.toNat < 0x80) :
    (⟨bytes (c :: t) ++ rest, i⟩ : Cursor).skip 1 = ⟨bytes t ++ rest, i + 1⟩ := by
  rw [Text.bytes_cons, Text.charBytes_ascii h]
  rfl

/-- The next character behind blanks. -/
theorem next_blanks (hg : Blanks g) (h : Solid c) (atEnd : Cause) :
    (⟨bytes g ++ (bytes (c :: t) ++ rest), i⟩ : Cursor).next atEnd =
      .ok (c, ⟨bytes (c :: t) ++ rest, i + g.length⟩) := by
  obtain ⟨hspace, hlength⟩ := hg.bytes
  rw [Text.bytes_cons, Text.charBytes_ascii h.1]
  have htake : (bytes g ++ (c.toNat.toUInt8 :: (bytes t ++ rest))).takeWhile isSpace = bytes g := by
    rw [List.takeWhile_append_of_pos hspace, List.takeWhile_cons_of_neg (by simp [h.2]), List.append_nil]
  have hskip : (⟨bytes g ++ (c.toNat.toUInt8 :: (bytes t ++ rest)), i⟩ : Cursor).skipSpace =
      ⟨c.toNat.toUInt8 :: (bytes t ++ rest), i + g.length⟩ := by
    rw [skipSpace, htake, hlength, skip_append hlength]
  simp only [List.cons_append, List.nil_append, next, hskip, peek?_cons, ofNat_toUInt8 h.1]

/-- The next character, where it is no blank. -/
theorem next_char (h : Solid c) (atEnd : Cause) :
    (⟨bytes (c :: t) ++ rest, i⟩ : Cursor).next atEnd = .ok (c, ⟨bytes (c :: t) ++ rest, i⟩) :=
  next_blanks t rest i .nil h atEnd

end Cursor

theorem settles_char {c : Char} (h : c.toNat < 0x80) (hc : c.isDigit = false ∧ c ∉ ['.', 'e', 'E'])
    (t : Text) (rest : List UInt8) : Settles (bytes (c :: t) ++ rest) := by
  intro b hb
  rw [Text.bytes_cons, Text.charBytes_ascii h] at hb
  cases hb
  rwa [ofNat_toUInt8 h]

theorem settles_blanks {g : Text} (hg : Blanks g) {bs : List UInt8} (h : Settles bs) : Settles (bytes g ++ bs) := by
  have hblank : ∀ c ∈ [' ', '\n', '\t', '\r'], c.toNat < 0x80 ∧ c.isDigit = false ∧ c ∉ ['.', 'e', 'E'] := by
    simp
  cases g with
  | nil => exact h
  | cons c g =>
    obtain ⟨hascii, hc⟩ := hblank c (hg c (by simp))
    exact settles_char hascii hc g bs

/-! ### Parts of lists and objects -/

section

variable {first : Bool} {l g : Text} {c : Char} (t : Text) (rest : List UInt8) (i : Nat)

theorem nextItem_close (first : Bool) (hg : Blanks g) :
    nextItem first ⟨bytes g ++ (bytes (']' :: t) ++ rest), i⟩ =
      .ok (false, ⟨bytes (']' :: t) ++ rest, i + g.length⟩) := by
  rw [nextItem, Cursor.next_blanks _ _ _ hg (by decide)]
  rfl

theorem nextItem_item (hl : Leads first l) (hsolid : Solid c) (hend : c ≠ ']') :
    nextItem first ⟨bytes l ++ (bytes (c :: t) ++ rest), i⟩ =
      .ok (true, ⟨bytes (c :: t) ++ rest, i + l.length⟩) := by
  cases hl with
  | first hg =>
    rw [nextItem, Cursor.next_blanks _ _ _ hg hsolid, ok_bind]
    simp only [if_neg hend, Bool.not_true, Bool.false_eq_true, and_false, if_false, if_true]
    rfl
  | @next g g' hg hg' =>
    rw [Text.bytes_append, List.append_assoc, nextItem, Cursor.next_blanks _ _ _ hg (by decide), ok_bind]
    simp only [if_neg (show ',' ≠ ']' by decide), Bool.not_false, and_self, if_true]
    rw [Cursor.skip_char _ _ _ (by decide), Cursor.next_blanks _ _ _ hg' hsolid, ok_bind, if_neg hend,
      List.length_append, List.length_cons,
      show i + g.length + 1 + g'.length = i + (g.length + (g'.length + 1)) by omega]
    rfl

theorem endList_close (hg : Blanks g) :
    endList ⟨bytes g ++ (bytes (']' :: t) ++ rest), i⟩ = .ok ⟨bytes t ++ rest, i + g.length + 1⟩ := by
  rw [endList, Cursor.next_blanks _ _ _ hg (by decide), ok_bind]
  simp only [if_true, Cursor.skip_char _ _ _ (show ']'.toNat < 0x80 by decide)]
  rfl

/-- A list does not end before another item. -/
theorem endList_item (hl : Leads false l) : ∃ f, endList ⟨bytes l ++ rest, i⟩ = .error f := by
  cases hl with
  | @next g g' hg hg' =>
    rw [Text.bytes_append, List.append_assoc, endList, Cursor.next_blanks _ _ _ hg (by decide), ok_bind]
    simp only [if_neg (show ',' ≠ ']' by decide), if_true]
    split <;> exact ⟨_, rfl⟩

theorem endList_mark : endList ⟨bytes (']' :: t) ++ rest, i⟩ = .ok ⟨bytes t ++ rest, i + 1⟩ :=
  endList_close t rest i .nil

theorem nextKey_close (first : Bool) (hg : Blanks g) :
    nextKey first ⟨bytes g ++ (bytes ('\x7d' :: t) ++ rest), i⟩ =
      .ok (false, ⟨bytes ('\x7d' :: t) ++ rest, i + g.length⟩) := by
  rw [nextKey, Cursor.next_blanks _ _ _ hg (by decide)]
  rfl

theorem nextKey_member (hl : Leads first l) :
    nextKey first ⟨bytes l ++ (bytes ('"' :: t) ++ rest), i⟩ = .ok (true, ⟨bytes t ++ rest, i + l.length + 1⟩) := by
  cases hl with
  | first hg =>
    rw [nextKey, Cursor.next_blanks _ _ _ hg (by decide), ok_bind]
    simp only [if_neg (show '"' ≠ '\x7d' by decide), Bool.not_true, Bool.false_eq_true, and_false, if_false,
      if_true, Cursor.skip_char _ _ _ (show '"'.toNat < 0x80 by decide)]
    rfl
  | @next g g' hg hg' =>
    rw [Text.bytes_append, List.append_assoc, nextKey, Cursor.next_blanks _ _ _ hg (by decide), ok_bind]
    simp only [if_neg (show ',' ≠ '\x7d' by decide), Bool.not_false, and_self, if_true]
    rw [Cursor.skip_char _ _ _ (by decide), Cursor.next_blanks _ _ _ hg' (by decide), ok_bind, if_pos rfl,
      Cursor.skip_char _ _ _ (by decide), List.length_append, List.length_cons,
      show i + g.length + 1 + g'.length = i + (g.length + (g'.length + 1)) by omega]
    rfl

theorem readColon_blanks (hg : Blanks g) :
    readColon ⟨bytes g ++ (bytes (':' :: t) ++ rest), i⟩ = .ok ⟨bytes t ++ rest, i + g.length + 1⟩ := by
  rw [readColon, Cursor.next_blanks _ _ _ hg (by decide), ok_bind]
  simp only [if_true, Cursor.skip_char _ _ _ (show ':'.toNat < 0x80 by decide)]
  rfl

theorem endObject_mark : endObject ⟨bytes ('\x7d' :: t) ++ rest, i⟩ = .ok ⟨bytes t ++ rest, i + 1⟩ := by
  rw [endObject, Cursor.next_char _ _ _ (by decide), ok_bind]
  simp only [if_true, Cursor.skip_char _ _ _ (show '\x7d'.toNat < 0x80 by decide)]
  rfl

theorem nextKey_end (first : Bool) :
    nextKey first ⟨bytes ('\x7d' :: t) ++ rest, i⟩ = .ok (false, ⟨bytes ('\x7d' :: t) ++ rest, i⟩) :=
  nextKey_close t rest i first .nil

theorem nextKey_first :
    nextKey true ⟨bytes ('"' :: t) ++ rest, i⟩ = .ok (true, ⟨bytes t ++ rest, i + 1⟩) :=
  nextKey_member t rest i (.first .nil)

theorem nextKey_comma :
    nextKey false ⟨bytes (',' :: '"' :: t) ++ rest, i⟩ = .ok (true, ⟨bytes t ++ rest, i + 2⟩) :=
  nextKey_member t rest i (.next .nil .nil)

theorem readColon_mark : readColon ⟨bytes (':' :: t) ++ rest, i⟩ = .ok ⟨bytes t ++ rest, i + 1⟩ :=
  readColon_blanks t rest i .nil

end

/-! ### The end of a text -/

/-- Bytes that are passed over as blanks are those of blanks. -/
theorem exists_blanks_iff (bs : List UInt8) : (∃ w, Blanks w ∧ bs = bytes w) ↔ ∀ b ∈ bs, Cursor.isSpace b = true := by
  constructor
  · rintro ⟨w, hw, rfl⟩
    exact hw.bytes.1
  · intro h
    induction bs with
    | nil => exact ⟨[], .nil, rfl⟩
    | cons b bs ih =>
      obtain ⟨w, hw, rfl⟩ := ih fun b' hb' => h b' (List.mem_cons_of_mem _ hb')
      have hb := h b (List.mem_cons_self ..)
      simp only [Cursor.isSpace, Bool.or_eq_true, decide_eq_true_eq] at hb
      rcases hb with ((rfl | rfl) | rfl) | rfl
      · exact ⟨' ' :: w, List.forall_mem_cons.2 ⟨by decide, hw⟩, rfl⟩
      · exact ⟨'\n' :: w, List.forall_mem_cons.2 ⟨by decide, hw⟩, rfl⟩
      · exact ⟨'\t' :: w, List.forall_mem_cons.2 ⟨by decide, hw⟩, rfl⟩
      · exact ⟨'\r' :: w, List.forall_mem_cons.2 ⟨by decide, hw⟩, rfl⟩

/-- The text may end with blanks only. -/
theorem endText_eq_ok_iff (rest : List UInt8) (i : Nat) :
    endText ⟨rest, i⟩ = .ok () ↔ ∃ w, Blanks w ∧ rest = bytes w := by
  have hdrop : (Cursor.skipSpace ⟨rest, i⟩).rest = rest.dropWhile Cursor.isSpace := by
    have hleft : (rest.takeWhile Cursor.isSpace ++ rest.dropWhile Cursor.isSpace).drop
        (rest.takeWhile Cursor.isSpace).length = rest.dropWhile Cursor.isSpace := List.drop_left
    rwa [List.takeWhile_append_dropWhile] at hleft
  rw [exists_blanks_iff, ← List.dropWhile_eq_nil_iff, ← hdrop, ← List.isEmpty_iff]
  cases hempty : (Cursor.skipSpace ⟨rest, i⟩).rest.isEmpty <;> simp [endText, hempty, Cursor.failNext]

end ServerSplit.Json
