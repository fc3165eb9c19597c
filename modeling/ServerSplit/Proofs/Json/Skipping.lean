import ServerSplit.Proofs.Json.Values

/-! Values of JSON that do not matter are passed over, in whichever way they are written and however deep they
are. -/
namespace ServerSplit.Json

open Text (bytes charBytes)

theorem skipValue_atomic {c : Char} {g t : Text} {v : Json} (ha : Atomic c t v) (hg : Blanks g) {n : Nat}
    {rest : List UInt8} (hrest : Settles rest) (i : Nat) :
    ∃ j, skipValue (n + 1) ⟨bytes g ++ (bytes (c :: t) ++ rest), i⟩ = .ok ⟨rest, j⟩ := by
  obtain ⟨j, hj⟩ := ha.skips rest (i + g.length) hrest
  have hmark := ha.notMark
  simp only [List.mem_cons, not_or] at hmark
  refine ⟨j, ?_⟩
  rw [skipValue, Cursor.next_blanks _ _ _ hg ha.solid, ok_bind]
  simp only [if_neg hmark.1, if_neg hmark.2.2.1, hj]

theorem skipKey_quotes {k key g g' : Text} (hk : Quotes k key) (hg : Blanks g) (hg' : Blanks g') (t : Text)
    (rest : List UInt8) (i : Nat) :
    ∃ j, skipKey ⟨bytes g ++ (bytes ('"' :: (k ++ (g' ++ ':' :: t))) ++ rest), i⟩ = .ok ⟨bytes t ++ rest, j⟩ := by
  have hlength : k.length ≤ (bytes ('"' :: (k ++ (g' ++ ':' :: t))) ++ rest).length + 1 :=
    Nat.le_succ_of_le (Text.length_le_of_within ⟨charBytes '"', bytes (g' ++ ':' :: t) ++ rest, by simp⟩)
  obtain ⟨j, hj⟩ := skipString_quotes hk hlength (bytes (g' ++ ':' :: t) ++ rest) (i + g.length + 1)
  refine ⟨j + g'.length + 1, ?_⟩
  rw [skipKey, Cursor.next_blanks _ _ _ hg (by decide), ok_bind]
  simp only [if_true, Cursor.skip_char _ _ _ (show '"'.toNat < 0x80 by decide)]
  rw [Text.bytes_append, List.append_assoc, hj, ok_bind, Text.bytes_append, List.append_assoc,
    readColon_blanks _ _ _ hg']

theorem skipRest_close (isList : Bool) {g : Text} (hg : Blanks g) (behind : Bool) (n : Nat) (rest : List UInt8)
    (i : Nat) : ∃ j, skipRest (n + 1) isList behind
      ⟨bytes g ++ (bytes [if isList then ']' else '\x7d'] ++ rest), i⟩ = .ok ⟨rest, j⟩ := by
  have hsolid : Solid (if isList then ']' else '\x7d') := by cases isList <;> decide
  refine ⟨i + g.length + 1, ?_⟩
  rw [skipRest, Cursor.next_blanks _ _ _ hg hsolid, ok_bind]
  simp only [if_true, Cursor.skip_char _ _ _ hsolid.1]
  rfl

/-- What leads to an item is passed over up to blanks. -/
theorem skipRest_leads (isList : Bool) {first : Bool} {l : Text} (hl : Leads first l) {c : Char} (hsolid : Solid c)
    (hc : c ∉ [']', '\x7d', ',']) (t : Text) (n : Nat) (rest : List UInt8) (i : Nat) : ∃ g j, Blanks g ∧
      skipRest (n + 1) isList (!first) ⟨bytes l ++ (bytes (c :: t) ++ rest), i⟩ =
        (do
          let d : Cursor := ⟨bytes g ++ (bytes (c :: t) ++ rest), j⟩
          let d ← if isList then .ok d else skipKey d
          skipRest n isList true (← skipValue n d)) := by
  have hend : c ≠ if isList then ']' else '\x7d' := by
    rintro rfl
    cases isList <;> simp at hc
  cases hl with
  | first hg =>
    refine ⟨[], i + l.length, .nil, ?_⟩
    rw [skipRest, Cursor.next_blanks _ _ _ hg hsolid, ok_bind]
    simp only [if_neg hend]
    rfl
  | @next g g' hg hg' =>
    refine ⟨g', i + g.length + 1, hg', ?_⟩
    rw [Text.bytes_append, List.append_assoc, skipRest, Cursor.next_blanks _ _ _ hg (by decide), ok_bind]
    have hcomma : ',' ≠ if isList then ']' else '\x7d' := by cases isList <;> decide
    simp only [if_neg hcomma, Bool.not_false, Bool.not_true, Bool.false_eq_true, if_false, if_true,
      Cursor.skip_char _ _ _ (show ','.toNat < 0x80 by decide)]
    rfl

mutual

/-- A value is passed over in whichever way it is written, however deep it is. -/
theorem skipValue_writes {t : Text} {v : Json} (h : Writes t v) {n : Nat} (hn : t.length ≤ n) {g : Text}
    (hg : Blanks g) {rest : List UInt8} (hrest : Settles rest) (i : Nat) :
    ∃ j, skipValue n ⟨bytes g ++ (bytes t ++ rest), i⟩ = .ok ⟨rest, j⟩ := by
  obtain ⟨n, rfl⟩ := Nat.exists_eq_succ_of_ne_zero (n := n) (by have := h.length_pos; omega)
  have hflat (hv : v.depth = 0) : ∃ j, skipValue (n + 1) ⟨bytes g ++ (bytes t ++ rest), i⟩ = .ok ⟨rest, j⟩ := by
    obtain ⟨c, u, rfl, ha⟩ := h.atomic hv
    exact skipValue_atomic ha hg hrest i
  match h with
  | @Writes.array t vs h =>
    rw [List.length_cons] at hn
    rw [skipValue, Cursor.next_blanks _ _ _ hg (by decide), ok_bind]
    simp only [if_true, Cursor.skip_char _ _ _ (show '['.toNat < 0x80 by decide)]
    exact skipItems_writes h (by omega) rest _
  | @Writes.object t ms h =>
    rw [List.length_cons] at hn
    rw [skipValue, Cursor.next_blanks _ _ _ hg (by decide), ok_bind]
    simp only [if_neg (show '\x7b' ≠ '[' by decide), if_true,
      Cursor.skip_char _ _ _ (show '\x7b'.toNat < 0x80 by decide)]
    exact skipMembers_writes h (by omega) rest _
  | .null | .bool _ | .whole _ _ | .string _ => exact hflat rfl

theorem skipItems_writes {first : Bool} {t : Text} {vs : List Json} (h : WritesItems first t vs) {n : Nat}
    (hn : t.length ≤ n) (rest : List UInt8) (i : Nat) :
    ∃ j, skipRest n true (!first) ⟨bytes t ++ rest, i⟩ = .ok ⟨rest, j⟩ := by
  obtain ⟨n, rfl⟩ := Nat.exists_eq_succ_of_ne_zero (n := n) (by have := h.length_pos; omega)
  match h with
  | .close hg =>
    rw [Text.bytes_append, List.append_assoc]
    exact skipRest_close true hg _ n rest i
  | @WritesItems.item _ l t u v vs hl h hs =>
    obtain ⟨c, w, rfl, hsolid, hmark⟩ := h.exists_cons
    have hlengths := WritesItems.lengths h hs hn
    obtain ⟨g, j, hg, hj⟩ := skipRest_leads true hl hsolid hmark w n (bytes u ++ rest) i
    obtain ⟨k, hk⟩ := skipValue_writes h hlengths.1 hg (hs.settles rest) j
    obtain ⟨m, hm⟩ := skipItems_writes hs hlengths.2 rest k
    refine ⟨m, ?_⟩
    rw [Text.bytes_append, Text.bytes_append, List.append_assoc, List.append_assoc, hj]
    simp only [if_true, ok_bind, hk]
    exact hm

theorem skipMembers_writes {first : Bool} {t : Text} {ms : List (Text × Json)} (h : WritesMembers first t ms)
    {n : Nat} (hn : t.length ≤ n) (rest : List UInt8) (i : Nat) :
    ∃ j, skipRest n false (!first) ⟨bytes t ++ rest, i⟩ = .ok ⟨rest, j⟩ := by
  obtain ⟨n, rfl⟩ := Nat.exists_eq_succ_of_ne_zero (n := n) (by have := h.length_pos; omega)
  match h with
  | .close hg =>
    rw [Text.bytes_append, List.append_assoc]
    exact skipRest_close false hg _ n rest i
  | @WritesMembers.member _ l k g g' t u key v ms hl hk hg hg' h hs =>
    have hlengths := WritesMembers.lengths hs hn
    obtain ⟨b, j, hb, hj⟩ := skipRest_leads false hl (c := '"') (by decide) (by decide)
      (k ++ (g ++ ':' :: (g' ++ (t ++ u)))) n rest i
    obtain ⟨p, hp⟩ := skipKey_quotes hk hb hg (g' ++ (t ++ u)) rest j
    obtain ⟨q, hq⟩ := skipValue_writes h hlengths.1 hg' (hs.settles rest) p
    obtain ⟨m, hm⟩ := skipMembers_writes hs hlengths.2 rest q
    refine ⟨m, ?_⟩
    rw [Text.bytes_append, List.append_assoc, hj]
    simp only [Bool.false_eq_true, if_false, hp, ok_bind, Text.bytes_append, List.append_assoc, hq]
    exact hm

end

end ServerSplit.Json
