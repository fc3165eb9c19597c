import ServerSplit.Slug
import ServerSplit.Proofs.Text.Words

/-! An identifier tells where its slug ends. A slug has no two underscores next to each other and none at
its end, so the first two in a row of an identifier are the ones behind its slug. -/
namespace ServerSplit

/-- A text that neither ends in an underscore nor has two in a row. -/
def Tight : Text → Prop
  | [] => True
  | [c] => c ≠ separator
  | c :: d :: t => ¬ (c = separator ∧ d = separator) ∧ Tight (d :: t)

theorem Tight.tail {c : Char} {t : Text} (h : Tight (c :: t)) : Tight t := by
  cases t with
  | nil => trivial
  | cons d t => exact h.2

theorem Tight.of_append {s t : Text} (h : Tight (s ++ t)) : Tight t := by
  induction s with
  | nil => exact h
  | cons c s ih => exact ih h.tail

/-- Two underscores in a row stand behind a tight text that a text begins with. -/
theorem Tight.prefix_of_pair {s t r u : Text} (ht : Tight t)
    (h : s ++ separator :: separator :: r = t ++ u) : t <+: s := by
  rcases List.append_eq_append_iff.1 h with ⟨k, rfl, hk⟩ | ⟨k, hk, _⟩
  · -- the underscores begin within the tight text
    match k, hk with
    | [], _ => exact ⟨[], by simp⟩
    | [c], hk =>
      obtain ⟨rfl, _⟩ := List.cons.inj hk
      exact (ht.of_append rfl).elim
    | c :: d :: k, hk =>
      obtain ⟨hc, hk⟩ := List.cons.inj hk
      obtain ⟨hd, _⟩ := List.cons.inj hk
      exact (ht.of_append.1 ⟨hc.symm, hd.symm⟩).elim
  · exact ⟨k, hk.symm⟩

/-- A tight text is where two underscores in a row stand first. -/
theorem Tight.append_inj {s t m n : Text} (hs : Tight s) (ht : Tight t)
    (h : s ++ separator :: separator :: m = t ++ separator :: separator :: n) : s = t ∧ m = n := by
  have hst : s = t := (hs.prefix_of_pair h.symm).eq_of_length_le (ht.prefix_of_pair h).length_le
  subst hst
  simpa using h

/-- A word: not empty, and without underscores. -/
def IsWord (w : Text) : Prop := w ≠ [] ∧ separator ∉ w

private theorem tight_word {w t : Text} (hw : IsWord w) (ht : t = [] ∨ ∃ c u, t = separator :: c :: u ∧
    c ≠ separator ∧ Tight (c :: u)) : Tight (w ++ t) := by
  obtain ⟨hne, hsep⟩ := hw
  induction w with
  | nil => exact (hne rfl).elim
  | cons c w ih =>
    have hc : c ≠ separator := fun he => hsep (by simp [he])
    cases w with
    | nil =>
      rcases ht with rfl | ⟨d, u, rfl, hd, hu⟩
      · exact hc
      · exact ⟨fun h => hc h.1, fun h => hd h.2, hu⟩
    | cons d w =>
      exact ⟨fun h => hc h.1, ih (by simp) fun h => hsep (by simp [h])⟩

theorem joinWith_head {w : Text} (hw : IsWord w) (ws : List Text) :
    ∃ c u, Text.joinWith [separator] (w :: ws) = c :: u ∧ c ≠ separator := by
  obtain ⟨hne, hsep⟩ := hw
  cases w with
  | nil => exact (hne rfl).elim
  | cons c w =>
    have hc : c ≠ separator := fun he => hsep (by simp [he])
    cases ws with
    | nil => exact ⟨c, w, rfl, hc⟩
    | cons v ws => exact ⟨c, _, rfl, hc⟩

/-- Words joined by single underscores. -/
theorem tight_joinWith {ws : List Text} (h : ∀ w ∈ ws, IsWord w) :
    Tight (Text.joinWith [separator] ws) := by
  induction ws with
  | nil => trivial
  | cons w ws ih =>
    have hw := h w (by simp)
    have hws := ih fun v hv => h v (by simp [hv])
    cases ws with
    | nil => rw [← List.append_nil (Text.joinWith _ _)]; exact tight_word hw (.inl rfl)
    | cons v ws =>
      obtain ⟨c, u, hu, hc⟩ := joinWith_head (h v (by simp)) ws
      have hjoin : Text.joinWith [separator] (w :: v :: ws) = w ++ separator :: c :: u := by
        change w ++ [separator] ++ Text.joinWith [separator] (v :: ws) = _
        rw [hu]
        simp
      rw [hjoin]
      exact tight_word hw (.inr ⟨c, u, rfl, hc, hu ▸ hws⟩)

theorem separator_notMem_spell (c : Char) : separator ∉ spell c := by
  have hspellings : ∀ p ∈ spellings, separator ∉ p.2.toList := by decide +kernel
  unfold spell spelling?
  split
  · decide
  · rename_i hc
    split
    · simp
    · cases hp : spellings.find? fun p => p.1.toList.contains c with
      | none => simpa using fun he => hc he.symm
      | some p => exact hspellings p (List.mem_of_find?_eq_some hp)

theorem words_isWord {t : Text} (ht : separator ∉ t) : ∀ w ∈ Text.words t, IsWord w := by
  intro w hw
  obtain ⟨hne, hmem⟩ := Text.mem_words hw
  exact ⟨hne, fun h => ht (hmem _ h).2⟩

theorem slug_tight (path : Text) : Tight (slug path) := by
  refine tight_joinWith (words_isWord ?_)
  simp only [List.mem_flatMap, not_exists, not_and]
  exact fun c _ => separator_notMem_spell c

/-- Functions with one identifier have one name, and their files one slug. -/
theorem eq_of_functionId_eq {p q m n : Text} (h : functionId p m = functionId q n) :
    slug p = slug q ∧ m = n := by
  simp only [functionId, List.append_assoc, List.cons_append, List.nil_append] at h
  exact (slug_tight p).append_inj (slug_tight q) h

/-- Identifiers tell slugs and names apart, whatever underscores the names hold: the first two underscores
in a row are the ones behind the slug. -/
theorem functionId_unique (p q m n : Text) :
    (functionId p m = functionId q n ↔ slug p = slug q ∧ m = n) ∧
      slug p ++ [separator, separator] <+: functionId p m ∧
      ∀ s, s ++ [separator, separator] <+: functionId p m → slug p <+: s := by
  refine ⟨⟨eq_of_functionId_eq, ?_⟩, ⟨m, rfl⟩, ?_⟩
  · rintro ⟨hslug, rfl⟩
    rw [functionId, functionId, hslug]
  · rintro s ⟨r, hr⟩
    simp only [functionId, List.append_assoc, List.cons_append, List.nil_append] at hr
    exact (slug_tight p).prefix_of_pair hr

/-- The file `(.)` has no slug, and `_` no more than `()`; its function `_f` has an identifier with three
underscores, of which the first two are its separators. -/
theorem functionId_unique_bare :
    functionId "(.)".toList "_f".toList = "___f".toList ∧
      functionId "(.)".toList "_f".toList = functionId "_".toList "_f".toList ∧
      functionId "(.)".toList "_f".toList ≠ functionId "_".toList "f".toList ∧
      slug "(.)".toList <+: "_".toList := by
  have h := functionId_unique "(.)".toList "_".toList "_f".toList "_f".toList
  have hne := (functionId_unique "(.)".toList "_".toList "_f".toList "f".toList).1
  refine ⟨by decide +kernel, h.1.2 ⟨by decide +kernel, rfl⟩, ?_, h.2.2 "_".toList ⟨"f".toList, by decide +kernel⟩⟩
  exact fun he => absurd (hne.1 he).2 (by decide)

end ServerSplit
