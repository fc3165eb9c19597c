import ServerSplit.Proofs.Text.Split
import ServerSplit.Text.Blank

/-! The words of a text. Words are read on either side of a blank by themselves, so words that are joined by
blanks are read as they were. -/
namespace ServerSplit.Text

private theorem go_append_blank {b : Char} (hb : isBlank b = true) (s t w : Text) :
    words.go (s ++ b :: t) w = words.go s w ++ words t := by
  induction s generalizing w with
  | nil => by_cases hw : w.isEmpty <;> simp [words.go, words, hb, hw]
  | cons c s ih =>
    rw [List.cons_append, words.go, words.go]
    split
    · split
      · exact ih []
      · rw [ih [], List.cons_append]
    · exact ih (c :: w)

/-- What stands before a blank and what stands behind it are read by themselves. -/
theorem words_append_blank {b : Char} (hb : isBlank b = true) (s t : Text) :
    words (s ++ b :: t) = words s ++ words t :=
  go_append_blank hb s t []

theorem words_cons_blank {b : Char} (hb : isBlank b = true) (t : Text) : words (b :: t) = words t :=
  words_append_blank hb [] t

theorem words_append_of_blank {s : Text} (hs : ∀ c ∈ s, isBlank c = true) (t : Text) :
    words (s ++ t) = words t := by
  induction s with
  | nil => rfl
  | cons b s ih =>
    obtain ⟨hb, hs⟩ := List.forall_mem_cons.1 hs
    rw [List.cons_append, words_cons_blank hb, ih hs]

/-- Blanks part the words before them from those behind them. -/
theorem words_parted {s : Text} (hne : s ≠ []) (hs : ∀ c ∈ s, isBlank c = true) (p q : Text) :
    words (p ++ s ++ q) = words p ++ words q := by
  obtain ⟨b, s, rfl⟩ := List.exists_cons_of_ne_nil hne
  obtain ⟨hb, hs⟩ := List.forall_mem_cons.1 hs
  rw [List.append_assoc, List.cons_append, words_append_blank hb, words_append_of_blank hs]

private theorem go_of_forall {t w : Text} (hne : t ≠ [] ∨ w ≠ []) (ht : ∀ c ∈ t, isBlank c = false) :
    words.go t w = [w.reverse ++ t] := by
  induction t generalizing w with
  | nil =>
    have hw : w ≠ [] := by simpa using hne
    simp [words.go, hw]
  | cons c t ih =>
    obtain ⟨hc, ht⟩ := List.forall_mem_cons.1 ht
    rw [words.go, if_neg (by simp [hc]), ih (.inr (by simp)) ht]
    simp

/-- A text without blanks is one word. -/
theorem words_of_forall {w : Text} (hne : w ≠ []) (hw : ∀ c ∈ w, isBlank c = false) : words w = [w] :=
  go_of_forall (.inl hne) hw

/-- The words hold no blank, and nothing that the text does not hold. -/
theorem mem_words {t w : Text} (h : w ∈ words t) : w ≠ [] ∧ ∀ c ∈ w, isBlank c = false ∧ c ∈ t := by
  induction hn : t.length using Nat.strongRecOn generalizing t with
  | _ n ih =>
    by_cases hall : ∀ c ∈ t, isBlank c = false
    · by_cases hne : t = []
      · subst hne
        cases h
      · rw [words_of_forall hne hall, List.mem_singleton] at h
        subst h
        exact ⟨hne, fun c hc => ⟨hall c hc, hc⟩⟩
    · -- the text is cut at a blank
      obtain ⟨b, hb, hblank⟩ : ∃ b ∈ t, isBlank b = true := by simpa using hall
      obtain ⟨s, u, rfl⟩ := List.append_of_mem hb
      rw [words_append_blank hblank] at h
      rw [List.length_append, List.length_cons] at hn
      rcases List.mem_append.1 h with h | h
      · obtain ⟨hne, hw⟩ := ih s.length (by omega) h rfl
        exact ⟨hne, fun c hc => ⟨(hw c hc).1, List.mem_append_left _ (hw c hc).2⟩⟩
      · obtain ⟨hne, hw⟩ := ih u.length (by omega) h rfl
        exact ⟨hne, fun c hc => ⟨(hw c hc).1, List.mem_append_right _ (List.mem_cons_of_mem _ (hw c hc).2)⟩⟩

/-- Words that are joined by a blank are the words of what they are joined to. -/
theorem words_joinWith {b : Char} (hb : isBlank b = true) {ws : List Text}
    (h : ∀ w ∈ ws, w ≠ [] ∧ ∀ c ∈ w, isBlank c = false) : words (joinWith [b] ws) = ws := by
  induction ws with
  | nil => rfl
  | cons w ws ih =>
    obtain ⟨⟨hne, hw⟩, hws⟩ := List.forall_mem_cons.1 h
    by_cases hnil : ws = []
    · subst hnil
      exact words_of_forall hne hw
    · rw [joinWith_cons hnil, List.append_assoc, List.singleton_append, words_append_blank hb,
        words_of_forall hne hw, ih hws, List.singleton_append]

end ServerSplit.Text
