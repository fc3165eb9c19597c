import ServerSplit.Proofs.Slug

/-! The normal form of a slug. What a slug holds is spelled by itself, so a slug is its own slug; what a path
holds besides shows only where it parts two words, and then as one underscore. -/
namespace ServerSplit

open Text

/-- A character of a word in a slug. -/
structure Plain (c : Char) : Prop where
  not_blank : isBlank c = false
  not_reserved : c ∉ reservedChars
  not_spelled : spelling? c = none
  ne_separator : c ≠ separator

/-- The form of a slug. -/
structure Normal (t : Text) : Prop where
  not_blank : ∀ c ∈ t, isBlank c = false
  not_reserved : ∀ c ∈ t, c ∉ reservedChars
  not_spelled : ∀ c ∈ t, spelling? c = none
  not_doubled : ¬ [separator, separator] <:+: t
  head : t.head? ≠ some separator
  last : t.getLast? ≠ some separator

/-- The second path is the first with reserved characters put in. -/
inductive Padded : Text → Text → Prop
  | nil : Padded [] []
  | keep {c : Char} {p t : Text} : Padded p t → Padded (c :: p) (c :: t)
  | add {c : Char} {p t : Text} : c ∈ reservedChars → Padded p t → Padded p (c :: t)

/-! ### Spelling -/

/-- A path as it is spelled. -/
def spelled (path : Text) : Text := path.flatMap spell

theorem spell_separator : spell separator = [' '] := if_pos rfl

theorem spell_reserved {c : Char} (h : c ∈ reservedChars) : spell c = [] := by
  have hc : c ≠ separator := by
    rintro rfl
    exact absurd h (by decide)
  rw [spell, if_neg hc, if_pos (by simpa using h)]

theorem spell_plain {c : Char} (h : Plain c) : spell c = [c] := by
  rw [spell, if_neg h.ne_separator, if_neg (by simpa using h.not_reserved), h.not_spelled]
  rfl

/-- Blanks and plain letters have no spelling. -/
theorem spelling?_eq_none {c : Char} (h : isBlank c = true ∨ c.isAlpha = true) : spelling? c = none := by
  have hkeys : (spellings.all fun p => p.1.toList.all fun d => !isBlank d && !d.isAlpha) = true := by
    decide +kernel
  simp only [spelling?, Option.map_eq_none_iff, List.find?_eq_none, List.contains_iff_mem]
  intro p hp hc
  have hkey := List.all_eq_true.1 (List.all_eq_true.1 hkeys p hp) c hc
  rcases h with h | h <;> simp [h] at hkey

theorem spell_blank {c : Char} (h : isBlank c = true) : spell c = [c] := by
  have hreserved : (reservedChars.all fun d => !isBlank d) = true := by decide
  have hsep : c ≠ separator := by
    rintro rfl
    exact absurd h (by decide)
  have hc : c ∉ reservedChars := fun hmem => by simpa [h] using List.all_eq_true.1 hreserved c hmem
  rw [spell, if_neg hsep, if_neg (by simpa using hc), spelling?_eq_none (.inl h)]
  rfl

theorem plain_of_isAlpha {c : Char} (h : c.isAlpha = true) (hblank : isBlank c = false) : Plain c where
  not_blank := hblank
  not_reserved hc := by
    have hreserved : (reservedChars.all fun d => !d.isAlpha) = true := by decide
    simpa [h] using List.all_eq_true.1 hreserved c hc
  not_spelled := spelling?_eq_none (.inr h)
  ne_separator := by
    rintro rfl
    exact absurd h (by decide)

/-- What is spelled is blank or stands for itself. -/
theorem mem_spell {c d : Char} (h : d ∈ spell c) : isBlank d = true ∨ Plain d := by
  have htable : (spellings.all fun p => p.2.toList.all fun d => isBlank d || d.isAlpha) = true := by
    decide +kernel
  by_cases hblank : isBlank d = true
  · exact .inl hblank
  refine .inr ?_
  by_cases hsep : c = separator
  · rw [hsep, spell_separator, List.mem_singleton] at h
    exact absurd (by rw [h]; decide) hblank
  by_cases hres : c ∈ reservedChars
  · rw [spell_reserved hres] at h
    cases h
  rw [spell, if_neg hsep, if_neg (by simpa using hres)] at h
  cases hs : spelling? c with
  | none =>
    rw [hs, Option.getD_none, List.mem_singleton] at h
    subst h
    exact ⟨by simpa using hblank, hres, hs, hsep⟩
  | some t =>
    obtain ⟨p, hp, rfl⟩ := Option.map_eq_some_iff.1 hs
    rw [hs, Option.getD_some] at h
    have hd := List.all_eq_true.1 (List.all_eq_true.1 htable p (List.mem_of_find?_eq_some hp)) d h
    exact plain_of_isAlpha (by simpa [hblank] using hd) (by simpa using hblank)

/-- The words of a path as it is spelled. -/
theorem words_spelled (path : Text) : ∀ w ∈ words (spelled path), w ≠ [] ∧ ∀ c ∈ w, Plain c := by
  intro w hw
  obtain ⟨hne, hmem⟩ := mem_words hw
  refine ⟨hne, fun c hc => ?_⟩
  obtain ⟨hblank, hin⟩ := hmem c hc
  obtain ⟨d, _, hd⟩ := List.mem_flatMap.1 hin
  exact (mem_spell hd).resolve_left (by simp [hblank])

theorem spelled_word {w : Text} (h : ∀ c ∈ w, Plain c) : spelled w = w := by
  induction w with
  | nil => rfl
  | cons c w ih =>
    obtain ⟨hc, hw⟩ := List.forall_mem_cons.1 h
    rw [spelled, List.flatMap_cons, spell_plain hc]
    exact congrArg _ (ih hw)

theorem spelled_append (p q : Text) : spelled (p ++ q) = spelled p ++ spelled q := List.flatMap_append

/-- A slug is spelled as its words with single blanks between them. -/
theorem spelled_joinWith {ws : List Text} (h : ∀ w ∈ ws, ∀ c ∈ w, Plain c) :
    spelled (joinWith [separator] ws) = joinWith [' '] ws := by
  induction ws with
  | nil => rfl
  | cons w ws ih =>
    obtain ⟨hw, hws⟩ := List.forall_mem_cons.1 h
    by_cases hnil : ws = []
    · subst hnil
      exact spelled_word hw
    · rw [joinWith_cons hnil, joinWith_cons hnil, spelled_append, spelled_append, spelled_word hw, ih hws]
      rfl

theorem spelled_padded {p t : Text} (h : Padded p t) : spelled t = spelled p := by
  induction h with
  | nil => rfl
  | keep _ ih => exact congrArg (spell _ ++ ·) ih
  | add hc _ ih =>
    rw [spelled, List.flatMap_cons, spell_reserved hc]
    exact ih

/-- Underscores and white space are spelled as blanks, one for each. -/
theorem spelled_blanks {s : Text} (h : ∀ c ∈ s, c = separator ∨ isBlank c = true) :
    (∀ c ∈ spelled s, isBlank c = true) ∧ (spelled s).length = s.length := by
  induction s with
  | nil => exact ⟨by simp [spelled], rfl⟩
  | cons c s ih =>
    obtain ⟨hc, hs⟩ := List.forall_mem_cons.1 h
    obtain ⟨hall, hlen⟩ := ih hs
    obtain ⟨b, hb, hspell⟩ : ∃ b, isBlank b = true ∧ spell c = [b] := by
      rcases hc with rfl | hc
      · exact ⟨' ', by decide, spell_separator⟩
      · exact ⟨c, hc, spell_blank hc⟩
    have hcons : spelled (c :: s) = b :: spelled s := by rw [spelled, List.flatMap_cons, hspell]; rfl
    rw [hcons]
    exact ⟨List.forall_mem_cons.2 ⟨hb, hall⟩, by simp [hlen]⟩

/-! ### Slugs -/

theorem slug_eq (path : Text) : slug path = joinWith [separator] (words (spelled path)) := rfl

theorem slug_eq_nil {path : Text} : slug path = [] ↔ words (spelled path) = [] := by
  refine ⟨fun h => ?_, fun h => by rw [slug_eq, h]; rfl⟩
  have hwords := words_spelled path
  exact Decidable.byContradiction fun hne => joinWith_ne_nil hne (fun w hw => (hwords w hw).1) h

theorem Tight.not_doubled {t : Text} (h : Tight t) : ¬ [separator, separator] <:+: t := by
  rintro ⟨s, u, rfl⟩
  rw [List.append_assoc] at h
  exact h.of_append.1 ⟨rfl, rfl⟩

theorem Tight.last {t : Text} (h : Tight t) : t.getLast? ≠ some separator := by
  intro hlast
  obtain ⟨s, rfl⟩ := List.getLast?_eq_some_iff.1 hlast
  exact h.of_append rfl

theorem slug_head (path : Text) : (slug path).head? ≠ some separator := by
  rw [slug_eq]
  have hwords := words_spelled path
  generalize words (spelled path) = ws at hwords
  cases ws with
  | nil => simp [joinWith]
  | cons w ws =>
    obtain ⟨hne, hw⟩ := hwords w (by simp)
    obtain ⟨c, u, hu, hc⟩ := joinWith_head ⟨hne, fun hs => (hw separator hs).ne_separator rfl⟩ ws
    simpa [hu] using hc

theorem mem_slug {path : Text} {c : Char} (h : c ∈ slug path) : c = separator ∨ Plain c := by
  rcases mem_joinWith h with hc | ⟨w, hw, hc⟩
  · exact .inl (List.mem_singleton.1 hc)
  · exact .inr ((words_spelled path w hw).2 c hc)

theorem slug_normal (path : Text) : Normal (slug path) where
  not_blank c h := (mem_slug h).elim (fun he => by rw [he]; decide) (·.not_blank)
  not_reserved c h := (mem_slug h).elim (fun he => by rw [he]; decide) (·.not_reserved)
  not_spelled c h := (mem_slug h).elim (fun he => by rw [he]; decide +kernel) (·.not_spelled)
  not_doubled := (slug_tight path).not_doubled
  head := slug_head path
  last := (slug_tight path).last

theorem slug_slug (path : Text) : slug (slug path) = slug path := by
  have hwords := words_spelled path
  have hagain : words (spelled (slug path)) = words (spelled path) := by
    rw [slug_eq, spelled_joinWith fun w hw => (hwords w hw).2]
    exact words_joinWith (by decide) fun w hw => ⟨(hwords w hw).1, fun c hc => ((hwords w hw).2 c hc).not_blank⟩
  rw [slug_eq (slug path), hagain, slug_eq]

theorem slug_parted {s : Text} (hne : s ≠ []) (hs : ∀ c ∈ s, c = separator ∨ isBlank c = true) (p q : Text) :
    slug (p ++ s ++ q) =
      if slug p = [] then slug q else if slug q = [] then slug p else slug p ++ [separator] ++ slug q := by
  obtain ⟨hblank, hlen⟩ := spelled_blanks hs
  have hparts : words (spelled (p ++ s ++ q)) = words (spelled p) ++ words (spelled q) := by
    rw [spelled_append, spelled_append]
    refine words_parted (fun h => hne ?_) hblank _ _
    rwa [h, List.length_nil, eq_comm, List.length_eq_zero_iff] at hlen
  rw [slug_eq, hparts]
  split
  · rename_i hp
    rw [slug_eq_nil.1 hp, List.nil_append, slug_eq]
  · rename_i hp
    split
    · rename_i hq
      rw [slug_eq_nil.1 hq, List.append_nil, slug_eq]
    · rename_i hq
      exact joinWith_append (mt slug_eq_nil.2 hp) (mt slug_eq_nil.2 hq)

/-- The laws of slugs: their form, that it is reached at once, that reserved characters do not count, and
that a run of underscores and white space parts what stands around it by one underscore. -/
theorem slug_laws (p : Text) :
    Normal (slug p) ∧ slug (slug p) = slug p ∧ (∀ t, Padded p t → slug t = slug p) ∧
      ∀ q s, s ≠ [] → (∀ c ∈ s, c = separator ∨ isBlank c = true) →
        slug (p ++ s ++ q) =
          if slug p = [] then slug q else if slug q = [] then slug p else slug p ++ [separator] ++ slug q :=
  ⟨slug_normal p, slug_slug p, fun t ht => by rw [slug_eq, spelled_padded ht, slug_eq],
    fun q _ hne hs => slug_parted hne hs p q⟩

/-- A full stop between an underscore and a blank does not count, and behind the two words that `₹` is
spelled by the underscore and the blank part the third. -/
theorem slug_laws_rupee :
    slug "₹_. b".toList = slug "₹_ b".toList ∧ slug "₹_ b".toList = slug "₹".toList ++ ['_'] ++ slug "b".toList ∧
      slug "₹".toList = "indian_rupee".toList ∧ slug "indian_rupee".toList = "indian_rupee".toList := by
  have hrupee : slug "₹".toList = "indian_rupee".toList := by decide +kernel
  have hb : slug "b".toList = "b".toList := by decide +kernel
  obtain ⟨_, hagain, _, hpart⟩ := slug_laws "₹".toList
  refine ⟨(slug_laws "₹_ b".toList).2.2.1 _ ?_, ?_, hrupee, hrupee ▸ hagain⟩
  · exact .keep (.keep (.add (by decide) (.keep (.keep .nil))))
  · rw [← List.append_nil "₹_ b".toList]
    have hgap : ∀ c ∈ "_ ".toList, c = separator ∨ isBlank c = true :=
      List.forall_mem_cons.2 ⟨.inl rfl, List.forall_mem_singleton.2 (.inr (by decide))⟩
    exact (hpart "b".toList "_ ".toList (by decide) hgap).trans (by rw [hrupee, hb]; rfl)

end ServerSplit
