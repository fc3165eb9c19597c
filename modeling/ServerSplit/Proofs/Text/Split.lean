import ServerSplit.Text.Basic

/-! The parts of a text between separators, and texts in a row. Splitting goes part by part: what stands
before a separator and what stands behind it are split by themselves. -/
namespace ServerSplit.Text

variable {sep : Char} {glue : Text}

theorem splitOn_ne_nil (sep : Char) (t : Text) : splitOn sep t ≠ [] := by
  cases t with
  | nil => simp [splitOn]
  | cons c t =>
    unfold splitOn
    split
    · simp
    · split <;> simp

theorem splitOn_cons_of_ne {c : Char} (h : c ≠ sep) (t : Text) :
    ∃ w ws, splitOn sep t = w :: ws ∧ splitOn sep (c :: t) = (c :: w) :: ws := by
  obtain ⟨w, ws, hw⟩ := List.exists_cons_of_ne_nil (splitOn_ne_nil sep t)
  exact ⟨w, ws, hw, by rw [splitOn, if_neg h, hw]⟩

/-- What stands before a separator and what stands behind it are split by themselves. -/
theorem splitOn_append (s t : Text) : splitOn sep (s ++ sep :: t) = splitOn sep s ++ splitOn sep t := by
  induction s with
  | nil => simp [splitOn]
  | cons c s ih =>
    by_cases hc : c = sep
    · subst hc
      simp [splitOn, ih]
    · obtain ⟨w, ws, hw, hcons⟩ := splitOn_cons_of_ne hc s
      rw [hw, List.cons_append] at ih
      rw [hcons, List.cons_append, splitOn, if_neg hc, ih]
      rfl

theorem splitOn_of_not_mem {t : Text} (h : sep ∉ t) : splitOn sep t = [t] := by
  induction t with
  | nil => rfl
  | cons c t ih =>
    obtain ⟨hc, ht⟩ := List.ne_and_not_mem_of_not_mem_cons h
    rw [splitOn, if_neg hc.symm, ih ht]

/-- Texts that end with a separator each. -/
theorem splitOn_flatMap {α : Type} {f : α → Text} {xs : List α} (h : ∀ x ∈ xs, sep ∉ f x) (t : Text) :
    splitOn sep (xs.flatMap (fun x => f x ++ [sep]) ++ t) = xs.map f ++ splitOn sep t := by
  induction xs with
  | nil => rfl
  | cons x xs ih =>
    rw [List.flatMap_cons, List.append_assoc, List.append_assoc, List.singleton_append, splitOn_append,
      splitOn_of_not_mem (h x (by simp)), ih fun y hy => h y (by simp [hy])]
    rfl

theorem length_splitOn (t : Text) : (splitOn sep t).length = t.count sep + 1 := by
  induction t with
  | nil => rfl
  | cons c t ih =>
    by_cases hc : c = sep
    · subst hc
      rw [splitOn, if_pos rfl, List.length_cons, ih, List.count_cons_self]
    · obtain ⟨w, ws, hw, hcons⟩ := splitOn_cons_of_ne hc t
      rw [hw, List.length_cons] at ih
      rw [hcons, List.length_cons, ih, List.count_cons_of_ne hc]

/-! ### Texts in a row -/

theorem joinWith_cons {t : Text} {ts : List Text} (h : ts ≠ []) :
    joinWith glue (t :: ts) = t ++ glue ++ joinWith glue ts := by
  cases ts with
  | nil => exact (h rfl).elim
  | cons u us => rfl

theorem joinWith_append {ts us : List Text} (hts : ts ≠ []) (hus : us ≠ []) :
    joinWith glue (ts ++ us) = joinWith glue ts ++ glue ++ joinWith glue us := by
  induction ts with
  | nil => exact (hts rfl).elim
  | cons t ts ih =>
    by_cases h : ts = []
    · subst h
      exact joinWith_cons hus
    · rw [List.cons_append, joinWith_cons (by simp [h]), ih h, joinWith_cons h]
      simp only [List.append_assoc]

theorem joinWith_ne_nil {ts : List Text} (hts : ts ≠ []) (h : ∀ t ∈ ts, t ≠ []) : joinWith glue ts ≠ [] := by
  cases ts with
  | nil => exact (hts rfl).elim
  | cons t us =>
    have ht := h t (by simp)
    cases us with
    | nil => exact ht
    | cons u us => exact List.append_ne_nil_of_left_ne_nil (List.append_ne_nil_of_left_ne_nil ht _) _

theorem mem_joinWith {ts : List Text} {c : Char} (h : c ∈ joinWith glue ts) : c ∈ glue ∨ ∃ t ∈ ts, c ∈ t := by
  induction ts with
  | nil => cases h
  | cons t ts ih =>
    by_cases hts : ts = []
    · subst hts
      exact .inr ⟨t, by simp, h⟩
    · rw [joinWith_cons hts, List.append_assoc] at h
      rcases List.mem_append.1 h with h | h
      · exact .inr ⟨t, by simp, h⟩
      · rcases List.mem_append.1 h with h | h
        · exact .inl h
        · obtain hc | ⟨u, hu, hc⟩ := ih h
          · exact .inl hc
          · exact .inr ⟨u, by simp [hu], hc⟩

/-- Splitting undoes joining. -/
theorem splitOn_joinWith {ts : List Text} (hne : ts ≠ []) (h : ∀ t ∈ ts, sep ∉ t) :
    splitOn sep (joinWith [sep] ts) = ts := by
  induction ts with
  | nil => exact (hne rfl).elim
  | cons t ts ih =>
    obtain ⟨ht, hts⟩ := List.forall_mem_cons.1 h
    by_cases hnil : ts = []
    · subst hnil
      exact splitOn_of_not_mem ht
    · rw [joinWith_cons hnil, List.append_assoc, List.singleton_append, splitOn_append, splitOn_of_not_mem ht,
        ih hnil hts, List.singleton_append]

/-- Every text but the first stands behind the glue. -/
theorem joinWith_eq_flatMap (t : Text) (ts : List Text) :
    joinWith glue (t :: ts) = t ++ ts.flatMap (glue ++ ·) := by
  induction ts generalizing t with
  | nil => exact (List.append_nil t).symm
  | cons u us ih =>
    rw [joinWith_cons (List.cons_ne_nil u us), ih, List.flatMap_cons]
    simp only [List.append_assoc]

end ServerSplit.Text
