import ServerSplit.Proofs.Text.Slice
import ServerSplit.Text.Replace

/-! What replacing keeps of a text, and which characters are in the text that it gives. -/
namespace ServerSplit.Text

theorem after_self (p t : Text) : after p (p ++ t) = some t := by
  induction p with
  | nil => rfl
  | cons c p ih => simpa [after] using ih

private theorem replace_go_append (old new w t : Text) : replace.go old new (w ++ t) w.length = replace.go old new t 0 := by
  induction w with
  | nil => rfl
  | cons c w ih => exact ih

/-- An occurrence at the head is replaced. -/
theorem replace_old {old : Text} (h : old ≠ []) (t new : Text) : (old ++ t).replace old new = new ++ t.replace old new := by
  obtain ⟨c, p, rfl⟩ := List.exists_cons_of_ne_nil h
  unfold replace
  rw [List.cons_append, replace.go, ← List.cons_append, after_self]
  exact congrArg _ (replace_go_append _ new p t)

/-- What holds the start of no occurrence is kept. -/
theorem replace_append {old w t : Text} (h : ∀ u c v, w = u ++ c :: v → after old (c :: v ++ t) = none) (new : Text) :
    (w ++ t).replace old new = w ++ t.replace old new := by
  induction w with
  | nil => rfl
  | cons c w ih =>
    have hrest := ih fun u d v hw => h (c :: u) d v (by rw [hw, List.cons_append])
    unfold replace at hrest ⊢
    rw [List.cons_append, replace.go, ← List.cons_append, h [] c w rfl]
    exact congrArg _ hrest

/-- Nothing is replaced where the first character of what is replaced does not stand. -/
theorem replace_append_of_notMem {c : Char} {old w : Text} (h : c ∉ w) (t new : Text) :
    (w ++ t).replace (c :: old) new = w ++ t.replace (c :: old) new := by
  refine replace_append (fun u d v hw => ?_) new
  have hd : c ≠ d := by
    rintro rfl
    exact h (by rw [hw]; simp)
  simp [after, hd]

/-- A text without one of the characters of what is replaced is kept. -/
theorem replace_of_notMem {c : Char} {old t : Text} (hc : c ∈ old) (ht : c ∉ t) (new : Text) :
    t.replace old new = t := by
  have hnone : ∀ u d v, t = u ++ d :: v → after old (d :: v ++ []) = none := by
    rintro u d v rfl
    refine Option.eq_none_iff_forall_ne_some.2 fun w hw => ht (List.mem_append_right u ?_)
    have hmem : c ∈ d :: v ++ [] := by
      rw [eq_append_of_after hw]
      exact List.mem_append_left w hc
    simpa using hmem
  have h := replace_append hnone new
  rwa [List.append_nil, show replace [] old new = [] from rfl, List.append_nil] at h

/-- A character that starts no occurrence is kept. -/
theorem replace_cons {old t : Text} {c : Char} (h : after old (c :: t) = none) (new : Text) :
    replace (c :: t) old new = c :: t.replace old new := by
  refine replace_append (w := [c]) (fun u d v hw => ?_) new
  obtain ⟨rfl, hw⟩ | ⟨_, -, hw⟩ := List.cons_eq_append_iff.1 hw
  · cases hw
    exact h
  · simp at hw

/-- A text is empty, or starts with an occurrence that is replaced, or with a character that is kept. -/
theorem replace_cases {old : Text} (h : old ≠ []) (t new : Text) :
    t = [] ∨ (∃ u : Text, t = old ++ u ∧ t.replace old new = new ++ u.replace old new) ∨
      ∃ (c : Char) (u : Text), t = c :: u ∧ t.replace old new = c :: u.replace old new := by
  cases t with
  | nil => exact .inl rfl
  | cons c t =>
    cases hafter : after old (c :: t) with
    | some u =>
      obtain hu := eq_append_of_after hafter
      rw [hu]
      exact .inr (.inl ⟨u, rfl, replace_old h u new⟩)
    | none => exact .inr (.inr ⟨c, t, rfl, replace_cons hafter new⟩)

/-- A character that stands neither in what is replaced nor in what takes its place stands as often as
before. -/
theorem count_replace {c : Char} {old new : Text} (h : old ≠ []) (hold : c ∉ old) (hnew : c ∉ new) (t : Text) :
    (t.replace old new).count c = t.count c := by
  induction ht : t.length using Nat.strongRecOn generalizing t with
  | ind n ih =>
    subst ht
    have hpos := List.length_pos_iff.2 h
    rcases replace_cases h t new with rfl | ⟨u, rfl, hu⟩ | ⟨d, u, rfl, hu⟩
    · rfl
    · rw [hu, List.count_append, List.count_append, List.count_eq_zero.2 hold, List.count_eq_zero.2 hnew]
      rw [ih u.length (by simp; omega) u rfl]
    · rw [hu, List.count_cons, List.count_cons, ih u.length (by simp) u rfl]

/-- Replacing brings in no characters but those of what takes the place. -/
theorem mem_of_mem_replace {c : Char} {old new t : Text} (h : old ≠ []) (hc : c ∈ t.replace old new) :
    c ∈ t ∨ c ∈ new := by
  induction ht : t.length using Nat.strongRecOn generalizing t with
  | ind n ih =>
    subst ht
    have hpos := List.length_pos_iff.2 h
    rcases replace_cases h t new with rfl | ⟨u, rfl, hu⟩ | ⟨d, u, rfl, hu⟩
    · cases hc
    · rw [hu, List.mem_append] at hc
      rcases hc with hc | hc
      · exact .inr hc
      · exact (ih u.length (by simp; omega) hc rfl).imp_left (List.mem_append_right old)
    · rw [hu, List.mem_cons] at hc
      rcases hc with rfl | hc
      · exact .inl (by simp)
      · exact (ih u.length (by simp) hc rfl).imp_left (List.mem_cons_of_mem d)

/-- A character that is replaced is left nowhere. -/
theorem notMem_replace_self {c : Char} {new : Text} (hnew : c ∉ new) (t : Text) : c ∉ t.replace [c] new := by
  induction ht : t.length using Nat.strongRecOn generalizing t with
  | ind n ih =>
    subst ht
    rcases replace_cases (List.cons_ne_nil c []) t new with rfl | ⟨u, rfl, hu⟩ | ⟨d, u, rfl, hu⟩
    · simp [replace, replace.go]
    · rw [hu, List.mem_append, not_or]
      exact ⟨hnew, ih u.length (by simp) u rfl⟩
    · by_cases hd : c = d
      · subst hd
        have hself := replace_old (List.cons_ne_nil c []) u new
        rw [show [c] ++ u = c :: u from rfl] at hself
        rw [hself, List.mem_append, not_or]
        exact ⟨hnew, ih u.length (by simp) u rfl⟩
      · rw [hu, List.mem_cons, not_or]
        exact ⟨hd, ih u.length (by simp) u rfl⟩

end ServerSplit.Text
