import ServerSplit.Js.Lexeme
import ServerSplit.Proofs.Text.Slice

/-! Every reader of a token takes a head of the text and leaves what follows it, and what it takes is
never empty. -/
namespace ServerSplit.Js

/-- What is read and what is left make up the text. -/
def Splits (reads : Reads) : Prop := ∀ ⦃t w r : Text⦄, reads t = some (w, r) → t = w ++ r

/-- Besides, something is read. -/
def Takes (reads : Reads) : Prop :=
  ∀ ⦃t w r : Text⦄, reads t = some (w, r) → w ≠ [] ∧ t = w ++ r

theorem Takes.splits {f : Reads} (h : Takes f) : Splits f := fun _ _ _ he => (h he).2

namespace Lexeme

/-! ### Combinators -/

theorem takes_run (p : Char → Bool) : Takes (run p) := by
  intro t w r h
  unfold run at h
  split at h
  · cases h
  · rename_i hw
    cases h
    exact ⟨hw, List.takeWhile_append_dropWhile.symm⟩

theorem andThen_eq_some {f g : Reads} {t w r : Text} (h : andThen f g t = some (w, r)) :
    ∃ a t' b, f t = some (a, t') ∧ g t' = some (b, r) ∧ w = a ++ b := by
  simp only [andThen, bind, Option.bind_eq_some_iff, Prod.exists] at h
  obtain ⟨a, t', hf, b, r', hg, he⟩ := h
  cases he
  exact ⟨a, t', b, hf, hg, rfl⟩

theorem splits_andThen {f g : Reads} (hf : Splits f) (hg : Splits g) : Splits (andThen f g) := by
  intro t w r h
  obtain ⟨a, t', b, ha, hb, rfl⟩ := andThen_eq_some h
  rw [hf ha, hg hb, List.append_assoc]

theorem takes_andThen_left {f g : Reads} (hf : Takes f) (hg : Splits g) : Takes (andThen f g) := by
  intro t w r h
  refine ⟨?_, splits_andThen hf.splits hg h⟩
  obtain ⟨a, t', b, ha, hb, rfl⟩ := andThen_eq_some h
  simp [(hf ha).1]

theorem splits_orNothing {f : Reads} (hf : Splits f) : Splits (orNothing f) := by
  intro t w r h
  simp only [orNothing, Option.orElse_eq_orElse, Option.orElse_eq_or, Option.or_eq_some_iff] at h
  rcases h with h | ⟨_, h⟩
  · exact hf h
  · cases h; rfl

/-- Of two readers of tokens, the first that fits. -/
theorem takes_orElse {f g : Reads} (hf : Takes f) (hg : Takes g) : Takes fun t => f t <|> g t := by
  intro t w r h
  simp only [Option.orElse_eq_orElse, Option.orElse_eq_or, Option.or_eq_some_iff] at h
  rcases h with h | ⟨_, h⟩
  · exact hf h
  · exact hg h

theorem splits_exactly (s : Text) : Splits (exactly s) := by
  intro t w r h
  simp only [exactly, Option.map_eq_some_iff, Prod.mk.injEq] at h
  obtain ⟨_, ha, rfl, rfl⟩ := h
  exact Text.eq_append_of_after ha

theorem takes_exactly {s : Text} (hs : s ≠ []) : Takes (exactly s) := by
  intro t w r h
  refine ⟨?_, splits_exactly s h⟩
  simp only [exactly, Option.map_eq_some_iff, Prod.mk.injEq] at h
  obtain ⟨_, _, rfl, _⟩ := h
  exact hs

theorem takes_oneOf (s : List Char) : Takes (oneOf s) := by
  intro t w r h
  cases t with
  | nil => cases h
  | cons c t =>
    simp only [oneOf] at h
    split at h
    · cases h; simp
    · cases h

theorem splits_count (n : Nat) (p : Char → Bool) : Splits (count n p) := by
  intro t w r h
  simp only [count] at h
  split at h
  · cases h; exact (List.take_append_drop n t).symm
  · cases h

/-- A reader that keeps the character before what it reads. -/
theorem takes_cons {f : Reads} {c : Char} {t w r : Text} (hf : Splits f)
    (h : (f t).map (fun p => (c :: p.1, p.2)) = some (w, r)) : w ≠ [] ∧ c :: t = w ++ r := by
  simp only [Option.map_eq_some_iff, Prod.mk.injEq, Prod.exists] at h
  obtain ⟨a, b, ha, rfl, rfl⟩ := h
  exact ⟨by simp, by rw [hf ha]; rfl⟩

/-! ### Names -/

theorem takes_unicodeEscape : Takes unicodeEscape := by
  refine takes_orElse ?_ ?_
  · exact takes_andThen_left (takes_exactly (by simp)) (splits_count _ _)
  · exact takes_andThen_left (takes_exactly (by simp))
      (splits_andThen (takes_run _).splits (splits_exactly _))

theorem takes_nameChar (first : Bool) : Takes (nameChar first) := by
  intro t w r h
  unfold nameChar at h
  split at h
  · exact takes_cons takes_unicodeEscape.splits h
  · split at h
    · cases h; simp
    · cases h
  · cases h

theorem nameRest_append (n t : Text) : (nameRest n t).1 ++ (nameRest n t).2 = t := by
  induction n generalizing t with
  | nil => rfl
  | cons _ n ih =>
    simp only [nameRest]
    split
    · rfl
    · rename_i a r h
      rw [(takes_nameChar false h).2, List.append_assoc, ih]

theorem takes_name : Takes name := by
  intro t w r h
  simp only [name, bind, Option.bind_eq_some_iff, Prod.exists] at h
  obtain ⟨a, b, ha, he⟩ := h
  cases he
  have := takes_nameChar true ha
  exact ⟨by simp [this.1], by rw [this.2, List.append_assoc, nameRest_append]⟩

theorem takes_nameExcept (words : List String) : Takes (nameExcept words) := by
  intro t w r h
  simp only [nameExcept, bind, Option.bind_eq_some_iff, Prod.exists] at h
  obtain ⟨a, b, ha, he⟩ := h
  split at he
  · cases he
  · cases he; exact takes_name ha

theorem takes_word (s : String) : Takes (word s) := by
  intro t w r h
  simp only [word, bind, Option.bind_eq_some_iff, Prod.exists] at h
  obtain ⟨a, b, ha, he⟩ := h
  split at he
  · cases he; exact takes_name ha
  · cases he

theorem takes_privateName : Takes privateName :=
  takes_andThen_left (takes_exactly (by simp)) takes_name.splits

theorem takes_hyphenName : Takes hyphenName := by
  intro t w r h
  simp only [hyphenName, bind, Option.bind_eq_some_iff, Prod.exists] at h
  obtain ⟨a, r₁, h₁, b, r₂, h₂, c, r₃, h₃, d, r₄, h₄, he⟩ := h
  cases he
  have h₁' : a ≠ [] ∧ t = a ++ r₁ := by
    split at h₁
    · split at h₁
      · cases h₁; simp
      · cases h₁
    · cases h₁
  refine ⟨by simp [h₁'.1], ?_⟩
  rw [h₁'.2, splits_orNothing (takes_run _).splits h₂, splits_exactly _ h₃,
    splits_orNothing (takes_run _).splits h₄]
  simp

theorem takes_markupName : Takes markupName := by
  intro t w r h
  unfold markupName at h
  split at h
  · rename_i h₁ h₂
    split at h
    · cases h; exact takes_hyphenName h₁
    · cases h; exact takes_name h₂
  · rename_i h₁ _
    exact takes_hyphenName (h₁.trans h)
  · exact takes_name h

/-! ### Numbers -/

private theorem splits_digitsTail (p : Char → Bool) : Splits (digits.go p) := by
  intro t
  fun_induction digits.go p t with
  | case1 c r hc ih =>
    intro w s h
    simp only [Option.map_eq_some_iff, Prod.mk.injEq, Prod.exists] at h
    obtain ⟨a, b, ha, rfl, rfl⟩ := h
    simp [ih ha]
  | case2 c r hc => intro w s h; cases h; rfl
  | case3 c r _ hc ih =>
    intro w s h
    simp only [Option.map_eq_some_iff, Prod.mk.injEq, Prod.exists] at h
    obtain ⟨a, b, ha, rfl, rfl⟩ := h
    simp [ih ha]
  | case4 c r _ hc => intro w s h; cases h; rfl
  | case5 => intro w s h; cases h; rfl

theorem takes_digits (p : Char → Bool) : Takes (digits p) := by
  intro t w r h
  cases t with
  | nil => cases h
  | cons c t =>
    simp only [digits] at h
    split at h
    · exact takes_cons (splits_digitsTail p) h
    · cases h

theorem splits_exponent : Splits exponent :=
  splits_andThen (takes_oneOf _).splits
    (splits_andThen (splits_orNothing (takes_oneOf _).splits) (takes_digits _).splits)

theorem takes_basedNumber (letters : List Char) (p : Char → Bool) : Takes (basedNumber letters p) :=
  takes_andThen_left (takes_exactly (by simp))
    (splits_andThen (takes_oneOf _).splits
      (splits_andThen (takes_digits p).splits (splits_orNothing (splits_exactly _))))

theorem takes_decimalNumber : Takes decimalNumber := by
  intro t w r h
  unfold decimalNumber at h
  split at h
  · exact takes_andThen_left (takes_exactly (by simp))
      (splits_andThen (takes_digits _).splits (splits_orNothing splits_exponent)) h
  · rename_i d s hd
    have hd' := takes_digits _ hd
    split at h
    · rename_i hn
      cases h
      cases s with
      | nil => cases hn
      | cons c s => simp_all
    · split at h
      · simp only [Option.map_eq_some_iff, Prod.mk.injEq, Prod.exists] at h
        obtain ⟨a, b, ha, rfl, rfl⟩ := h
        refine ⟨by simp [hd'.1], ?_⟩
        have hs : s = a ++ b := by
          split at ha
          · exact splits_andThen (splits_exactly _)
              (splits_andThen (splits_orNothing (takes_digits _).splits)
                (splits_orNothing splits_exponent)) ha
          · exact splits_orNothing splits_exponent ha
        rw [hd'.2, hs, List.append_assoc]
      · cases h; exact hd'

theorem takes_number : Takes number :=
  takes_orElse (takes_basedNumber _ _) (takes_orElse (takes_basedNumber _ _)
    (takes_orElse (takes_basedNumber _ _) takes_decimalNumber))

/-! ### Strings, templates, regular expressions -/

theorem takes_stringFragment (quote : Char) : Takes (stringFragment quote) := takes_run _

private theorem splits_escapeBody : Splits escapeSequence.body := by
  intro t w r h
  unfold escapeSequence.body at h
  split at h
  · cases h
  · exact (takes_cons (splits_count _ _) h).2
  · exact takes_unicodeEscape.splits h
  · split at h
    · cases h
    · split at h
      · cases h
        rename_i c s _ _ _ _
        have hp := List.takeWhile_prefix (l := s.take 2) isOctalDigit
        have hs := List.prefix_iff_eq_append.1 (hp.trans (List.take_prefix 2 s))
        rw [List.cons_append, hs]
      · split at h
        · split at h
          · split at h <;> (cases h; rfl)
          · cases h; rfl
        · cases h; rfl

theorem takes_escapeSequence : Takes escapeSequence := by
  intro t w r h
  unfold escapeSequence at h
  split at h
  · exact takes_cons splits_escapeBody h
  · cases h

theorem splits_templateTail : Splits templateText.go := by
  intro t
  fun_induction templateText.go t with
  | case1 => intro w r h; cases h
  | case2 => intro w r h; cases h; rfl
  | case3 => intro w r h; cases h; rfl
  | case4 => intro w r h; cases h
  | case5 c t _ _ _ ih =>
    intro w r h
    simp only [Option.map_eq_some_iff, Prod.mk.injEq, Prod.exists] at h
    obtain ⟨a, b, ha, rfl, rfl⟩ := h
    simp [ih ha]

theorem takes_templateText : Takes templateText := by
  intro t w r h
  simp only [templateText, bind, Option.bind_eq_some_iff, Prod.exists] at h
  obtain ⟨a, b, ha, he⟩ := h
  split at he
  · cases he
  · rename_i hne
    cases he
    exact ⟨by simpa using hne, splits_templateTail ha⟩

private theorem splits_regexClass : Splits regexPattern.classBody := by
  intro t
  fun_induction regexPattern.classBody t with
  | case1 c r _ ih =>
    intro w s h
    simp only [Option.map_eq_some_iff, Prod.mk.injEq, Prod.exists] at h
    obtain ⟨a, b, ha, rfl, rfl⟩ := h
    simp [ih ha]
  | case2 => intro w s h; cases h
  | case3 => intro w s h; cases h; rfl
  | case4 c r _ _ _ ih =>
    intro w s h
    simp only [Option.map_eq_some_iff, Prod.mk.injEq, Prod.exists] at h
    obtain ⟨a, b, ha, rfl, rfl⟩ := h
    simp [ih ha]
  | case5 => intro w s h; cases h
  | case6 => intro w s h; cases h

private theorem splits_regexPiece : Splits regexPattern.piece := by
  intro t w r h
  unfold regexPattern.piece at h
  split at h
  · split at h
    · cases h; rfl
    · cases h
  · exact (takes_cons splits_regexClass h).2
  · split at h
    · cases h; rfl
    · cases h
  · cases h

private theorem regexTail_append (n t : Text) :
    (regexPattern.go n t).1 ++ (regexPattern.go n t).2 = t := by
  induction n generalizing t with
  | nil => rfl
  | cons _ n ih =>
    simp only [regexPattern.go]
    split
    · rfl
    · rename_i a r h
      rw [splits_regexPiece h, List.append_assoc, ih]

theorem takes_regexPattern : Takes regexPattern := by
  intro t w r h
  have happ := regexTail_append t t
  unfold regexPattern at h
  split at h
  · cases h
  · rename_i hne
    rw [Option.some.injEq] at h
    rw [h] at happ hne
    exact ⟨fun hw => hne r (by rw [hw]), happ.symm⟩

theorem takes_regexFlags : Takes regexFlags := takes_run _

/-! ### Markup -/

theorem takes_markupText : Takes markupText := by
  intro t w r h
  simp only [markupText] at h
  split at h
  · rename_i hs
    cases h
    refine ⟨fun hw => ?_, List.takeWhile_append_dropWhile.symm⟩
    rw [hw] at hs
    cases hs
  · cases h

private theorem splits_headWhile (n : Nat) (p : Char → Bool) :
    Splits fun t =>
      let w := (t.take n).takeWhile p
      if w.isEmpty then none else some (w, t.drop w.length) := by
  intro t w r h
  dsimp only at h
  split at h
  · cases h
  · cases h
    have hp := (List.takeWhile_prefix (l := t.take n) p).trans (List.take_prefix n t)
    exact (List.prefix_iff_eq_append.1 hp).symm

theorem takes_entity : Takes entity := by
  intro t w r h
  have hsemi : Splits (exactly [';']) := splits_exactly _
  unfold entity at h
  dsimp only at h
  split at h
  · simp only [Option.map_eq_some_iff, Option.orElse_eq_orElse, Option.orElse_eq_or,
      Option.or_eq_some_iff, Prod.mk.injEq, Prod.exists] at h
    obtain ⟨a, b, h, rfl, rfl⟩ := h
    refine ⟨by simp, ?_⟩
    rcases h with h | ⟨_, h⟩
    · rw [splits_andThen (takes_oneOf _).splits (splits_andThen (splits_headWhile _ _) hsemi) h]
      rfl
    · rw [splits_andThen (splits_headWhile _ _) hsemi h]
      rfl
  · exact takes_cons (splits_andThen (splits_headWhile _ _) hsemi) h
  · cases h

private theorem attributeTail_append (quote : Char) (t : Text) :
    (attributeFragment.go quote t).1 ++ (attributeFragment.go quote t).2 = t := by
  fun_induction attributeFragment.go quote t <;> simp_all

theorem takes_attributeFragment (quote : Char) : Takes (attributeFragment quote) := by
  intro t w r h
  have happ := attributeTail_append quote t
  unfold attributeFragment at h
  split at h
  · cases h
  · rename_i hne
    rw [Option.some.injEq] at h
    rw [h] at happ hne
    exact ⟨fun hw => hne r (by rw [hw]), happ.symm⟩

/-! ### Operators, the first line, accessors -/

theorem takes_operator (s : Text) : Takes (operator s) := by
  intro t w r h
  simp only [operator, bind, Option.bind_eq_some_iff] at h
  obtain ⟨v, hv, h⟩ := h
  have hne : v ≠ [] := (by decide : ∀ w ∈ operators, w ≠ []) v (List.mem_of_find?_eq_some hv)
  split at h
  · rename_i hvs
    exact takes_exactly (hvs ▸ hne) h
  · cases h

theorem takes_question : Takes question := by
  intro t w r h
  unfold question at h
  split at h
  · cases h
  · split at h
    · cases h; simp
    · cases h
  · cases h
  · cases h; simp
  · cases h

theorem takes_chain : Takes chain := by
  intro t w r h
  unfold chain at h
  split at h
  · split at h
    · cases h
    · cases h; simp
  · cases h

theorem takes_hashBang : Takes hashBang := by
  intro t w r h
  simp only [hashBang, bind, Option.bind_eq_some_iff] at h
  obtain ⟨v, hv, h⟩ := h
  cases h
  refine ⟨by simp, ?_⟩
  rw [Text.eq_append_of_after hv]
  simp

/-- Up to the last character that `p` holds of, a run is a head of the text. -/
private theorem prefix_untilLast (p q : Char → Bool) (t : Text) :
    ((t.takeWhile q).reverse.dropWhile p).reverse <+: t := by
  refine List.IsPrefix.trans ?_ (List.takeWhile_prefix q)
  rw [← List.reverse_suffix, List.reverse_reverse]
  exact List.dropWhile_suffix p

theorem takes_staticGet : Takes staticGet := by
  intro t w r h
  simp only [staticGet, bind] at h
  obtain ⟨u, hu, h⟩ := Option.bind_eq_some_iff.1 h
  split at h
  · cases h
  · obtain ⟨v, hv, h⟩ := Option.bind_eq_some_iff.1 h
    split at h
    · cases h
    · cases h
      refine ⟨by simp, ?_⟩
      have hgap := List.prefix_iff_eq_append.1 (List.takeWhile_prefix (l := u) isPlainBlank)
      have hend := List.prefix_iff_eq_append.1 (prefix_untilLast (· != '\n') isPlainBlank v)
      have htext : t = "static".toList ++ (u.takeWhile isPlainBlank ++ ("get".toList ++ v)) := by
        rw [← Text.eq_append_of_after hv, hgap]
        exact Text.eq_append_of_after hu
      rw [htext]
      simp only [List.append_assoc, hend]

theorem exactly_eq_some {s t w r : Text} (h : exactly s t = some (w, r)) : w = s ∧ t = s ++ r := by
  obtain ⟨_, hafter, he⟩ := Option.map_eq_some_iff.1 h
  cases he
  exact ⟨rfl, Text.eq_append_of_after hafter⟩

theorem word_eq_some {s : String} {t w r : Text} (h : word s t = some (w, r)) :
    w = s.toList ∧ t = s.toList ++ r := by
  have htakes := takes_word s h
  obtain ⟨⟨v, u⟩, -, hr⟩ := Option.bind_eq_some_iff.1 h
  dsimp only at hr
  split at hr
  · rename_i hw
    cases hr
    exact ⟨hw, hw ▸ htakes.2⟩
  · cases hr

theorem question_eq_some {t w r : Text} (h : question t = some (w, r)) : w = ['?'] := by
  unfold question at h
  split at h
  · cases h
  · split at h
    · cases h; rfl
    · cases h
  · cases h
  · cases h; rfl
  · cases h

end Lexeme

namespace Comment

private theorem splits_blockBody : Splits blockBody := by
  intro t
  fun_induction blockBody t with
  | case1 => intro w r h; cases h
  | case2 => intro w r h; cases h
  | case3 => intro w r h; cases h; rfl
  | case4 => intro w r h; cases h
  | case5 c t _ _ _ ih =>
    intro w r h
    simp only [Option.map_eq_some_iff, Prod.mk.injEq, Prod.exists] at h
    obtain ⟨a, b, ha, rfl, rfl⟩ := h
    simp [ih ha]

theorem takes_read : Takes read? := by
  intro t w r h
  unfold read? at h
  split at h
  · cases h; simp
  · simp only [Option.map_eq_some_iff, Prod.mk.injEq, Prod.exists] at h
    obtain ⟨a, b, ha, rfl, rfl⟩ := h
    exact ⟨by simp, by rw [splits_blockBody ha]; rfl⟩
  · cases h

theorem takes_readMarkup : Takes readMarkup? := by
  intro t w r h
  simp only [readMarkup?] at h
  split at h
  · cases h; simp
  · cases h; simp
  · cases h

theorem takes_readContent : Takes readContent? := by
  intro t w r h
  simp only [readContent?, Option.map_eq_some_iff, Prod.mk.injEq, Prod.exists] at h
  obtain ⟨a, b, ha, rfl, rfl⟩ := h
  have hm := takes_readMarkup ha
  refine ⟨by simp [hm.1], ?_⟩
  rw [List.append_assoc, ← hm.2, List.takeWhile_append_dropWhile]

end Comment

end ServerSplit.Js
