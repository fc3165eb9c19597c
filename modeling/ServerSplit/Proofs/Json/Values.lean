import ServerSplit.Proofs.Json.Members
import ServerSplit.Proofs.Json.Parts

/-! Values of JSON read again. In whichever way it is written, a value is read with the last member of each key,
unless its lists and objects are in each other more deeply than the reader goes. A value without doubles whose
members are in order is read as itself from its text. -/
namespace ServerSplit.Json

open Text (bytes charBytes)

/-! ### Values that are written exactly -/

mutual

/-- How many lists and objects stand in each other at the deepest place of a value. -/
def depth : Json → Nat
  | .null | .bool _ | .number _ | .string _ => 0
  | .array vs => 1 + depthOf vs
  | .object ms => 1 + depthIn ms

def depthOf : List Json → Nat
  | [] => 0
  | v :: vs => max (depth v) (depthOf vs)

def depthIn : List (Text × Json) → Nat
  | [] => 0
  | (_, v) :: ms => max (depth v) (depthIn ms)

end

mutual

/-- Values without doubles: whole numbers have 64 bits, with a sign or without one, and the members of an
object are in the order of their keys, one for each. -/
def IsExact : Json → Prop
  | .null | .bool _ | .string _ => True
  | .number (.whole n) => -2 ^ 63 ≤ n ∧ n < 2 ^ 64
  | .number (.double _) => False
  | .array vs => AllExact vs
  | .object ms => (ms.map Prod.fst).Pairwise (· < ·) ∧ MembersExact ms

def AllExact : List Json → Prop
  | [] => True
  | v :: vs => IsExact v ∧ AllExact vs

def MembersExact : List (Text × Json) → Prop
  | [] => True
  | (_, v) :: ms => IsExact v ∧ MembersExact ms

end

/-! ### What a reader comes to -/

/-- A reader takes `x` and leaves the given bytes; where the brackets are too deep, it says so. -/
def Reaches {α : Type} (deep : Prop) (r : Except Fault (α × Cursor)) (x : α) (rest : List UInt8) : Prop :=
  (¬ deep → ∃ j, r = .ok (x, ⟨rest, j⟩)) ∧ (deep → ∃ j, r = .error ⟨.tooDeep, j⟩)

namespace Reaches

variable {α β : Type} {p q : Prop} {r : Except Fault (α × Cursor)} {x : α} {y : β} {rest rest' : List UInt8}

theorem ok (j : Nat) : Reaches False (.ok (x, ⟨rest, j⟩)) x rest := ⟨fun _ => ⟨j, rfl⟩, nofun⟩

theorem of_exists (h : ∃ j, r = .ok (x, ⟨rest, j⟩)) : Reaches False r x rest := ⟨fun _ => h, nofun⟩

theorem congr (h : Reaches p r x rest) (hpq : p ↔ q) : Reaches q r x rest := propext hpq ▸ h

/-- Readers one behind another. -/
theorem bind (h : Reaches p r x rest) {k : α × Cursor → Except Fault (β × Cursor)}
    (hk : ∀ j, Reaches q (k (x, ⟨rest, j⟩)) y rest') : Reaches (p ∨ q) (r >>= k) y rest' := by
  refine ⟨fun hdeep => ?_, fun hdeep => ?_⟩
  · obtain ⟨j, rfl⟩ := h.1 fun hp => hdeep (.inl hp)
    exact (hk j).1 fun hq => hdeep (.inr hq)
  · by_cases hp : p
    · obtain ⟨j, rfl⟩ := h.2 hp
      exact ⟨j, rfl⟩
    · obtain ⟨j, rfl⟩ := h.1 hp
      exact (hk j).2 (hdeep.resolve_left hp)

end Reaches

/-! ### Values that are no lists and no objects -/

/-- A text that is read as the value `v` and told by its first character. -/
structure Atomic (c : Char) (t : Text) (v : Json) : Prop where
  solid : Solid c
  notMark : c ∉ ['[', ']', '\x7b', '\x7d', ',']
  reads : ∀ rest i, Settles rest → ∃ j, readAtom c ⟨bytes (c :: t) ++ rest, i⟩ = .ok (v, ⟨rest, j⟩)
  skips : ∀ rest i, Settles rest → ∃ j, skipAtom c ⟨bytes (c :: t) ++ rest, i⟩ = .ok ⟨rest, j⟩

theorem toList_toString (n : Int) : (toString n).toList = Number.text (.whole n) := by
  cases n with
  | ofNat n =>
    change (Nat.repr n).toList = _
    simp [Number.text, Nat.repr, Text.ofNat]
  | negSucc n =>
    change ("-" ++ Nat.repr (n + 1)).toList = _
    simp [Number.text, Nat.repr, Text.ofNat, Int.negSucc_lt_zero]

private theorem atomic_negative {n : Nat} (hpos : 0 < n) (h : n ≤ Nat.pow 2 63) :
    Atomic '-' (Text.ofNat n) (.number (.whole (-n))) where
  solid := by decide
  notMark := by decide
  reads rest i hrest := by
    have hmax : n ≤ maxWhole := Nat.le_trans h (by decide)
    obtain ⟨j, hj⟩ := readNumber_digits hmax false (fun _ => ⟨hpos, h⟩) hrest (i + 1)
    refine ⟨j, ?_⟩
    rw [readAtom, Cursor.skip_char _ _ _ (by decide), hj]
    rfl
  skips rest i hrest := by
    obtain ⟨j, hj⟩ := skipNumber_digits n hrest (i + 1)
    refine ⟨j, ?_⟩
    rw [skipAtom, Cursor.skip_char _ _ _ (by decide), hj]

private theorem atomic_digits {n : Nat} (h : n ≤ maxWhole) :
    ∃ d ds, Text.ofNat n = d :: ds ∧ Atomic d ds (.number (.whole n)) := by
  obtain ⟨d, ds, hds, hdigits, -⟩ := exists_ofNat n
  have hd : d.isDigit = true := hdigits d (by simp)
  have hne {c : Char} := ne_of_isDigit (c := c) hd
  refine ⟨d, ds, hds, solid_of_isDigit hd, ?_, fun rest i hrest => ?_, fun rest i hrest => ?_⟩
  · simp [hne (c := ']') (by decide), hne (c := ',') (by decide), hne (c := '[') (by decide),
      hne (c := '\x7b') (by decide), hne (c := '\x7d') (by decide)]
  · obtain ⟨j, hj⟩ := readNumber_digits h true nofun hrest i
    refine ⟨j, ?_⟩
    rw [readAtom.eq_6 _ _ (hne (by decide)) (hne (by decide)) (hne (by decide)) (hne (by decide)) (hne (by decide)),
      if_pos hd, ← hds, hj]
    rfl
  · obtain ⟨j, hj⟩ := skipNumber_digits n hrest i
    refine ⟨j, ?_⟩
    rw [skipAtom.eq_6 _ _ (hne (by decide)) (hne (by decide)) (hne (by decide)) (hne (by decide)) (hne (by decide)),
      if_pos hd, ← hds, hj]

/-- What is written for a value that is no list and no object. -/
theorem Writes.atomic {t : Text} {v : Json} (h : Writes t v) (hflat : v.depth = 0) :
    ∃ c u, t = c :: u ∧ Atomic c u v := by
  cases h with
  | null => exact ⟨'n', "ull".toList, rfl, by decide, by decide, fun _ _ _ => ⟨_, rfl⟩, fun _ _ _ => ⟨_, rfl⟩⟩
  | bool b =>
    cases b with
    | true => exact ⟨'t', "rue".toList, rfl, by decide, by decide, fun _ _ _ => ⟨_, rfl⟩, fun _ _ _ => ⟨_, rfl⟩⟩
    | false => exact ⟨'f', "alse".toList, rfl, by decide, by decide, fun _ _ _ => ⟨_, rfl⟩, fun _ _ _ => ⟨_, rfl⟩⟩
  | @whole n hlow hhigh =>
    rw [toList_toString]
    by_cases hneg : n < 0
    · obtain ⟨m, rfl⟩ : ∃ m : Nat, n = -m := ⟨n.natAbs, by omega⟩
      refine ⟨'-', Text.ofNat m, by simp [Number.text, show 0 < m by omega], atomic_negative (by omega) ?_⟩
      have : Nat.pow 2 63 = 2 ^ 63 := rfl
      omega
    · obtain ⟨m, rfl⟩ : ∃ m : Nat, n = m := ⟨n.natAbs, by omega⟩
      have hmax : maxWhole = 2 ^ 64 - 1 := rfl
      obtain ⟨d, ds, hds, hatomic⟩ := atomic_digits (n := m) (by omega)
      exact ⟨d, ds, by simpa [Number.text, hneg] using hds, hatomic⟩
  | @string t s hs =>
    refine ⟨'"', t, rfl, by decide, by decide, fun rest i _ => ?_, fun rest i _ => ?_⟩
    · obtain ⟨j, hj⟩ := readString_quotes hs rest (i + 1)
      refine ⟨j, ?_⟩
      rw [readAtom, Cursor.skip_char _ _ _ (by decide), hj]
      rfl
    · have hlength : t.length ≤ (bytes ('"' :: t) ++ rest).length + 1 :=
        Nat.le_succ_of_le (Text.length_le_of_within ⟨charBytes '"', rest, rfl⟩)
      obtain ⟨j, hj⟩ := skipString_quotes hs hlength rest (i + 1)
      refine ⟨j, ?_⟩
      rw [skipAtom, Cursor.skip_char _ _ _ (by decide), hj]
  | array _ => simp [depth] at hflat
  | object _ => simp [depth] at hflat

/-! ### What is written for a value -/

/-- A value begins with a character that begins no other part of a list or of an object. -/
theorem Writes.exists_cons {t : Text} {v : Json} (h : Writes t v) :
    ∃ c u, t = c :: u ∧ Solid c ∧ c ∉ [']', '\x7d', ','] := by
  cases hdepth : v.depth with
  | zero =>
    obtain ⟨c, u, ht, hc⟩ := h.atomic hdepth
    have := hc.notMark
    exact ⟨c, u, ht, hc.solid, by simp_all⟩
  | succ n =>
    cases h with
    | array _ => exact ⟨'[', _, rfl, by decide, by decide⟩
    | object _ => exact ⟨'\x7b', _, rfl, by decide, by decide⟩
    | _ => cases hdepth

theorem Writes.length_pos {t : Text} {v : Json} (h : Writes t v) : 0 < t.length := by
  obtain ⟨c, u, rfl, -⟩ := h.exists_cons
  exact Nat.succ_pos _

theorem WritesItems.length_pos {first : Bool} {t : Text} {vs : List Json} (h : WritesItems first t vs) :
    0 < t.length := by
  cases h with
  | close hg => simp
  | item hl h hs =>
    have := h.length_pos
    simp only [List.length_append]
    omega

/-- What is written for an item and for those behind it is shorter than both with what leads to them. -/
theorem WritesItems.lengths {l t u : Text} {v : Json} {vs : List Json} (h : Writes t v) (hs : WritesItems false u vs)
    {n : Nat} (hn : (l ++ (t ++ u)).length ≤ n + 1) : t.length ≤ n ∧ u.length ≤ n := by
  have := h.length_pos
  have := hs.length_pos
  simp only [List.length_append] at hn
  omega

/-- An item of a list is found behind what leads to it. -/
theorem nextItem_writes {first : Bool} {l t : Text} {v : Json} (hl : Leads first l) (h : Writes t v) (u : Text)
    (rest : List UInt8) (i : Nat) : nextItem first ⟨bytes (l ++ (t ++ u)) ++ rest, i⟩ =
      .ok (true, ⟨bytes [] ++ (bytes t ++ (bytes u ++ rest)), i + l.length⟩) := by
  obtain ⟨c, w, rfl, hsolid, hmark⟩ := h.exists_cons
  simp only [Text.bytes_append, List.append_assoc]
  exact nextItem_item _ _ _ hl hsolid (by simp_all)

/-- The key of a member is found behind what leads to it, and the colon behind the key. -/
theorem nextKey_writes {first : Bool} {l k key : Text} (hl : Leads first l) (hk : Quotes k key) (g u : Text)
    (rest : List UInt8) (i : Nat) : ∃ j m,
      nextKey first ⟨bytes (l ++ '"' :: (k ++ (g ++ u))) ++ rest, i⟩ =
        .ok (true, ⟨bytes (k ++ (g ++ u)) ++ rest, j⟩) ∧
      readString ⟨bytes (k ++ (g ++ u)) ++ rest, j⟩ = .ok (key, ⟨bytes g ++ (bytes u ++ rest), m⟩) := by
  obtain ⟨m, hm⟩ := readString_quotes hk (bytes g ++ (bytes u ++ rest)) (i + l.length + 1)
  refine ⟨i + l.length + 1, m, ?_, ?_⟩
  · rw [Text.bytes_append, List.append_assoc, nextKey_member _ _ _ hl]
  · rw [← hm, Text.bytes_append, Text.bytes_append, List.append_assoc, List.append_assoc]

theorem settles_leads {l : Text} (hl : Leads false l) (bs : List UInt8) : Settles (bytes l ++ bs) := by
  cases hl with
  | next hg hg' =>
    rw [Text.bytes_append, List.append_assoc]
    exact settles_blanks hg (settles_char (by decide) (by decide) _ _)

theorem WritesItems.settles {t : Text} {vs : List Json} (h : WritesItems false t vs) (rest : List UInt8) :
    Settles (bytes t ++ rest) := by
  cases h with
  | close hg =>
    rw [Text.bytes_append, List.append_assoc]
    exact settles_blanks hg (settles_char (by decide) (by decide) _ _)
  | item hl h hs =>
    rw [Text.bytes_append, List.append_assoc]
    exact settles_leads hl _

theorem WritesMembers.length_pos {first : Bool} {t : Text} {ms : List (Text × Json)}
    (h : WritesMembers first t ms) : 0 < t.length := by
  cases h <;> simp

/-- What is written for the value of a member and for the members behind it is shorter than all of it. -/
theorem WritesMembers.lengths {l k g g' t u : Text} {ms : List (Text × Json)} (hs : WritesMembers false u ms) {n : Nat}
    (hn : (l ++ '"' :: (k ++ (g ++ ':' :: (g' ++ (t ++ u))))).length ≤ n + 1) : t.length ≤ n ∧ u.length ≤ n := by
  have := hs.length_pos
  simp only [List.length_append, List.length_cons] at hn
  omega

theorem WritesMembers.settles {t : Text} {ms : List (Text × Json)} (h : WritesMembers false t ms)
    (rest : List UInt8) : Settles (bytes t ++ rest) := by
  cases h with
  | close hg =>
    rw [Text.bytes_append, List.append_assoc]
    exact settles_blanks hg (settles_char (by decide) (by decide) _ _)
  | member hl hk hg hg' h hs =>
    rw [Text.bytes_append, List.append_assoc]
    exact settles_leads hl _

/-! ### Reading -/

theorem readValue_atomic {c : Char} {g t : Text} {v : Json} (ha : Atomic c t v) (hg : Blanks g) {n d : Nat}
    {rest : List UInt8} (hrest : Settles rest) (i : Nat) :
    Reaches False (readValue (n + 1) d ⟨bytes g ++ (bytes (c :: t) ++ rest), i⟩) v rest := by
  obtain ⟨j, hj⟩ := ha.reads rest (i + g.length) hrest
  have hmark := ha.notMark
  simp only [List.mem_cons, not_or] at hmark
  refine .of_exists ⟨j, ?_⟩
  rw [readValue, Cursor.next_blanks _ _ _ hg ha.solid, ok_bind]
  simp only [if_neg hmark.1, if_neg hmark.2.2.1, hj]

mutual

/-- A value is read in whichever way it is written, if it is less deep than the brackets that may be opened. -/
theorem readValue_writes {t : Text} {v : Json} (h : Writes t v) {n d : Nat} (hn : t.length ≤ n) (hd : 0 < d)
    {g : Text} (hg : Blanks g) {rest : List UInt8} (hrest : Settles rest) (i : Nat) :
    Reaches (d ≤ depth v) (readValue n d ⟨bytes g ++ (bytes t ++ rest), i⟩) (merged v) rest := by
  obtain ⟨n, rfl⟩ := Nat.exists_eq_succ_of_ne_zero (n := n) (by have := h.length_pos; omega)
  have hflat (hv : v.depth = 0) (hmerged : merged v = v) :
      Reaches (d ≤ depth v) (readValue (n + 1) d ⟨bytes g ++ (bytes t ++ rest), i⟩) (merged v) rest := by
    obtain ⟨c, u, rfl, ha⟩ := h.atomic hv
    rw [hmerged]
    exact (readValue_atomic ha hg hrest i).congr (iff_of_false not_false (by omega))
  match h with
  | @Writes.array t vs h =>
    rw [List.length_cons] at hn
    rw [readValue, Cursor.next_blanks _ _ _ hg (by decide), ok_bind]
    simp only [if_true, Cursor.skip_char _ _ _ (show '['.toNat < 0x80 by decide)]
    by_cases hdeep : d ≤ 1
    · rw [if_pos hdeep]
      exact ⟨fun h => absurd (show d ≤ depth (.array vs) by rw [depth]; omega) h, fun _ => ⟨_, rfl⟩⟩
    · rw [if_neg hdeep]
      refine Reaches.congr (p := d - 1 ≤ depthOf vs ∨ False) ?_ (by rw [depth, or_false]; omega)
      refine (readItems_writes h (by omega) (by omega) rest _).bind fun j => ?_
      rw [endList_mark]
      exact .ok _
  | @Writes.object t ms h =>
    rw [List.length_cons] at hn
    rw [readValue, Cursor.next_blanks _ _ _ hg (by decide), ok_bind]
    simp only [if_neg (show '\x7b' ≠ '[' by decide), if_true,
      Cursor.skip_char _ _ _ (show '\x7b'.toNat < 0x80 by decide)]
    by_cases hdeep : d ≤ 1
    · rw [if_pos hdeep]
      exact ⟨fun h => absurd (show d ≤ depth (.object ms) by rw [depth]; omega) h, fun _ => ⟨_, rfl⟩⟩
    · rw [if_neg hdeep]
      refine Reaches.congr (p := d - 1 ≤ depthIn ms ∨ False) ?_ (by rw [depth, or_false]; omega)
      refine (readMembers_writes h (by omega) (by omega) [] rest _).bind fun j => ?_
      rw [endObject_mark, insertAll_nil]
      exact .ok _
  | .null | .bool _ | .whole _ _ | .string _ => exact hflat rfl rfl

/-- The items of a list are read up to its end. -/
theorem readItems_writes {first : Bool} {t : Text} {vs : List Json} (h : WritesItems first t vs) {n d : Nat}
    (hn : t.length ≤ n) (hd : 0 < d) (rest : List UInt8) (i : Nat) :
    Reaches (d ≤ depthOf vs) (readItems n d first ⟨bytes t ++ rest, i⟩) (mergedAll vs) (bytes [']'] ++ rest) := by
  obtain ⟨n, rfl⟩ := Nat.exists_eq_succ_of_ne_zero (n := n) (by have := h.length_pos; omega)
  match h with
  | .close hg =>
    rw [Text.bytes_append, List.append_assoc, readItems, nextItem_close _ _ _ _ hg]
    exact (Reaches.ok _).congr (iff_of_false not_false (by rw [depthOf]; omega))
  | @WritesItems.item _ l t u v vs hl h hs =>
    have hlengths := WritesItems.lengths h hs hn
    rw [readItems, nextItem_writes hl h, ok_bind]
    refine Reaches.congr (p := d ≤ depth v ∨ d ≤ depthOf vs ∨ False) ?_ (by simp [depthOf])
    refine (readValue_writes h hlengths.1 hd .nil (hs.settles rest) _).bind fun j => ?_
    exact (readItems_writes hs hlengths.2 hd rest j).bind fun k => .ok k

/-- The members of an object are read up to its end. -/
theorem readMembers_writes {first : Bool} {t : Text} {ms : List (Text × Json)} (h : WritesMembers first t ms)
    {n d : Nat} (hn : t.length ≤ n) (hd : 0 < d) (before : List (Text × Json)) (rest : List UInt8) (i : Nat) :
    Reaches (d ≤ depthIn ms) (readMembers n d first before ⟨bytes t ++ rest, i⟩)
      (insertAll before (mergedIn ms)) (bytes ['\x7d'] ++ rest) := by
  obtain ⟨n, rfl⟩ := Nat.exists_eq_succ_of_ne_zero (n := n) (by have := h.length_pos; omega)
  match h with
  | .close hg =>
    rw [Text.bytes_append, List.append_assoc, readMembers, nextKey_close _ _ _ _ hg]
    exact (Reaches.ok _).congr (iff_of_false not_false (by rw [depthIn]; omega))
  | @WritesMembers.member _ l k g g' t u key v ms hl hk hg hg' h hs =>
    have hlengths := WritesMembers.lengths hs hn
    obtain ⟨j, m, hj, hm⟩ := nextKey_writes hl hk g (':' :: (g' ++ (t ++ u))) rest i
    rw [readMembers, hj, ok_bind]
    simp only [if_true, hm, ok_bind, readColon_blanks _ _ _ hg]
    rw [Text.bytes_append, Text.bytes_append, List.append_assoc, List.append_assoc]
    refine Reaches.congr (p := d ≤ depth v ∨ d ≤ depthIn ms) ?_ (by simp [depthIn])
    refine (readValue_writes h hlengths.1 hd hg' (hs.settles rest) _).bind fun m => ?_
    exact readMembers_writes hs hlengths.2 hd _ rest m

end

/-! ### Values as they are written without blanks -/

/-- The items of a list and its end, behind its bracket. -/
def itemsText : List Json → Text
  | [] => [']']
  | v :: vs => text v ++ restText vs

/-- The members of an object and its end, behind its brace. -/
def membersText : List (Text × Json) → Text
  | [] => ['\x7d']
  | (k, v) :: ms => quoted k ++ [':'] ++ text v ++ memberText ms

theorem text_array (vs : List Json) : text (.array vs) = '[' :: itemsText vs := by
  cases vs <;> rfl

theorem text_object (ms : List (Text × Json)) : text (.object ms) = '\x7b' :: membersText ms := by
  cases ms with
  | nil => rfl
  | cons m ms => simp [text, membersText]

theorem lastOfEach_of_ordered {ms : List (Text × Json)} (h : Ordered ms) : lastOfEach ms = ms := by
  induction ms with
  | nil => rfl
  | cons m ms ih =>
    obtain ⟨hm, hms⟩ := List.pairwise_cons.1 h
    have hnone : ¬ ms.any (·.1 = m.1) = true := by
      intro hany
      obtain ⟨a, ha, he⟩ := List.any_eq_true.1 hany
      exact List.lt_irrefl _ (of_decide_eq_true he ▸ hm a ha)
    rw [lastOfEach, if_neg hnone, ih hms]

mutual

/-- A value whose members are in order, one for each key, is read as it is. -/
theorem merged_of_isExact {v : Json} (hv : v.IsExact) : merged v = v := by
  cases v with
  | array vs => rw [merged, mergedAll_of_allExact hv]
  | object ms =>
    have horder : Ordered ms := List.pairwise_map.1 hv.1
    have hsorted : ms.Pairwise fun a b => byKey a b = true :=
      List.Pairwise.imp (fun hlt => byKey_iff.2 (List.lt_asymm hlt)) horder
    rw [merged, mergedIn_of_membersExact hv.2, lastOfEach_of_ordered horder, List.mergeSort_of_pairwise hsorted]
  | _ => rfl

theorem mergedAll_of_allExact {vs : List Json} (h : AllExact vs) : mergedAll vs = vs := by
  cases vs with
  | nil => rfl
  | cons v vs => rw [mergedAll, merged_of_isExact h.1, mergedAll_of_allExact h.2]

theorem mergedIn_of_membersExact {ms : List (Text × Json)} (h : MembersExact ms) : mergedIn ms = ms := by
  cases ms with
  | nil => rfl
  | cons m ms =>
    obtain ⟨k, v⟩ := m
    rw [mergedIn, merged_of_isExact h.1, mergedIn_of_membersExact h.2]

end

mutual

theorem writes_text {v : Json} (hv : v.IsExact) : Writes (text v) v := by
  cases v with
  | null => exact .null
  | bool b => exact .bool b
  | number n =>
    cases n with
    | whole n =>
      have := Writes.whole hv.1 hv.2
      rwa [toList_toString] at this
    | double bits => exact hv.elim
  | string t => exact .string (quotes_escaped t)
  | array vs =>
    rw [text_array]
    exact .array (writes_itemsText hv)
  | object ms =>
    rw [text_object]
    exact .object (writes_membersText hv.2)

theorem writes_itemsText {vs : List Json} (hvs : AllExact vs) : WritesItems true (itemsText vs) vs := by
  cases vs with
  | nil => exact .close .nil
  | cons v vs => exact .item (.first .nil) (writes_text hvs.1) (writes_restText hvs.2)

theorem writes_restText {vs : List Json} (hvs : AllExact vs) : WritesItems false (restText vs) vs := by
  cases vs with
  | nil => exact .close .nil
  | cons v vs => exact .item (.next .nil .nil) (writes_text hvs.1) (writes_restText hvs.2)

theorem writes_membersText {ms : List (Text × Json)} (hms : MembersExact ms) :
    WritesMembers true (membersText ms) ms := by
  cases ms with
  | nil => exact .close .nil
  | cons m ms =>
    obtain ⟨key, v⟩ := m
    have := WritesMembers.member (.first .nil) (quotes_escaped key) .nil .nil (writes_text hms.1)
      (writes_memberText hms.2)
    simpa [membersText, quoted] using this

theorem writes_memberText {ms : List (Text × Json)} (hms : MembersExact ms) :
    WritesMembers false (memberText ms) ms := by
  cases ms with
  | nil => exact .close .nil
  | cons m ms =>
    obtain ⟨key, v⟩ := m
    have := WritesMembers.member (.next .nil .nil) (quotes_escaped key) .nil .nil (writes_text hms.1)
      (writes_memberText hms.2)
    simpa [memberText, quoted] using this

end

/-- The items of a list, behind its bracket. -/
theorem readItems_itemsText {vs : List Json} (hvs : AllExact vs) {n d : Nat}
    (hn : (itemsText vs).length ≤ n) (hd : 0 < d) (rest : List UInt8) (i : Nat) :
    Reaches (d ≤ depthOf vs) (readItems n d true ⟨bytes (itemsText vs) ++ rest, i⟩) vs
      (bytes [']'] ++ rest) := by
  have := readItems_writes (writes_itemsText hvs) hn hd rest i
  rwa [mergedAll_of_allExact hvs] at this

/-- A whole text of JSON is read as the value that it is the text of. -/
theorem ofBytes_text {v : Json} (hv : v.IsExact) (hdepth : v.depth < depthLimit) :
    ofBytes (bytes (text v)) = .ok v := by
  have hfuel : (text v).length ≤ fuelAt (Cursor.ofBytes (bytes (text v))) := length_le_fuelAt List.infix_rfl 0
  have hsettles : Settles [] := nofun
  have hpos : 0 < depthLimit := by decide
  obtain ⟨j, hj⟩ := (readValue_writes (writes_text hv) hfuel hpos .nil hsettles 0).1 (Nat.not_le.2 hdepth)
  rw [List.append_nil, merged_of_isExact hv] at hj
  have hread : readValue (fuelAt (Cursor.ofBytes (bytes (text v)))) depthLimit (Cursor.ofBytes (bytes (text v))) =
    .ok (v, ⟨[], j⟩) := hj
  rw [ofBytes, hread]
  rfl

end ServerSplit.Json
