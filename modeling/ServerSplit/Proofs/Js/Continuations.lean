import ServerSplit.Js.OneLine
import ServerSplit.Proofs.Js.StringValue
import ServerSplit.Proofs.TakeOut
import ServerSplit.Proofs.Text.Replace

/-! String literals written on one line. Taking out the escaped line ends takes out the parts of the literal that
are these, and nothing else; what stood before and behind one of them then stands together. -/
namespace ServerSplit

namespace Js

open Text (after)

/-! ### Parts without escaped line ends -/

/-- A text that does not start with a line feed or a carriage return. -/
def Inline (t : Text) : Prop := t.head? ≠ some '\n' ∧ t.head? ≠ some '\r'

/-- The line ends that are taken out where they are escaped. -/
inductive Break : Text → Prop
  | both : Break ['\r', '\n']
  | feed : Break ['\n']
  | carriage : Break ['\r']

theorem Break.after_eq_none {b t : Text} (h : Break b) (ht : Inline t) : after b t = none := by
  obtain ⟨hfeed, hreturn⟩ := ht
  cases t with
  | nil => cases h <;> rfl
  | cons c t =>
    have hc : '\n' ≠ c ∧ '\r' ≠ c := ⟨fun he => hfeed (by rw [he]; rfl), fun he => hreturn (by rw [he]; rfl)⟩
    cases h <;> simp [after, hc.1, hc.2]

namespace Piece

variable {quote : Char} {p : Piece} {b t : Text}

theorem inline_append (h : p.Stands quote) (t : Text) : Inline (p.text ++ t) := by
  cases h with
  | plain hc =>
    refine ⟨fun he => hc (.inr (.inr (.inl ?_))), fun he => hc (.inr (.inr (.inr ?_)))⟩
    · exact Option.some.inj he
    · exact Option.some.inj he
  | escape => exact ⟨by simp [text], by simp [text]⟩

theorem belongs_slash {w : Text} (h : Belongs '\\' w) : w = [] := h

theorem belongs_feed {w : Text} (h : Belongs '\n' w) : w = [] := h

theorem belongs_return {w : Text} (h : Belongs '\r' w) : w = [] ∨ w = ['\n'] := h

/-- Behind its first character a part starts no escaped line end. -/
theorem replace_text (hb : Break b) (h : p.Stands quote) (ht : Inline t)
    (hp : after ('\\' :: b) (p.text ++ t) = none) :
    (p.text ++ t).replace ('\\' :: b) [] = p.text ++ t.replace ('\\' :: b) [] := by
  refine Text.replace_append (fun u c v hw => ?_) []
  by_cases hc : c = '\\'
  · subst hc
    cases u with
    | nil =>
      rw [List.nil_append] at hw
      rwa [← hw]
    | cons d u =>
      cases h with
      | plain hplain => simp [text] at hw
      | @escape e w hbelongs =>
        cases u with
        | nil =>
          -- an escaped backslash: no line end follows it, for none follows a part
          obtain ⟨-, rfl, rfl⟩ : _ ∧ e = '\\' ∧ w = v := by simpa [text] using hw
          rw [belongs_slash hbelongs]
          simpa [after] using hb.after_eq_none ht
        | cons d' u =>
          obtain ⟨-, -, rfl⟩ : _ ∧ e = d' ∧ w = u ++ '\\' :: v := by simpa [text] using hw
          exact (notMem_of_belongs hbelongs (by simp)).elim
  · simp [after, Ne.symm hc]

/-- A part is an escaped line end of a kind, or holds the start of none. -/
theorem text_eq_or (hb : Break b) (h : p.Stands quote) (hboth : b = ['\r'] → p.text ≠ ['\\', '\r', '\n'])
    (ht : Inline t) : p.text = '\\' :: b ∨ after ('\\' :: b) (p.text ++ t) = none := by
  cases h with
  | plain hc =>
    right
    have hslash : '\\' ≠ _ := fun he => hc (.inl he.symm)
    simp [text, after, hslash]
  | @escape c w hbelongs =>
    cases hb with
    | both =>
      by_cases hc : c = '\r'
      · subst hc
        rcases belongs_return hbelongs with rfl | rfl
        · exact .inr (Break.feed.after_eq_none ht)
        · exact .inl rfl
      · exact .inr (by simp [text, after, Ne.symm hc])
    | feed =>
      by_cases hc : c = '\n'
      · subst hc
        rw [belongs_feed hbelongs]
        exact .inl rfl
      · exact .inr (by simp [text, after, Ne.symm hc])
    | carriage =>
      by_cases hc : c = '\r'
      · subst hc
        rcases belongs_return hbelongs with rfl | rfl
        · exact .inl rfl
        · exact (hboth rfl rfl).elim
      · exact .inr (by simp [text, after, Ne.symm hc])

theorem breaksLine_iff (h : p.Stands quote) : p.breaksLine = true ↔
    p.text = ['\\', '\r', '\n'] ∨ p.text = ['\\', '\n'] ∨ p.text = ['\\', '\r'] := by
  cases h with
  | plain => simp [breaksLine, text]
  | @escape c w hbelongs =>
    constructor
    · intro hline
      rcases (by simpa [breaksLine] using hline : c = '\n' ∨ c = '\r') with rfl | rfl
      · simp [text, belongs_feed hbelongs]
      · rcases belongs_return hbelongs with rfl | rfl <;> simp [text]
    · intro htext
      have hc : c = '\n' ∨ c = '\r' := by
        rcases htext with he | he | he
        · exact .inr (List.cons.inj (List.cons.inj he).2).1
        · exact .inl (List.cons.inj (List.cons.inj he).2).1
        · exact .inr (List.cons.inj (List.cons.inj he).2).1
      simpa [breaksLine] using hc

end Piece

namespace StringLiteral

variable {quote : Char} {ps : List Piece} {b : Text}

theorem inline_texts (h : ∀ p ∈ ps, p.Stands quote) (hquote : quote ≠ '\n' ∧ quote ≠ '\r') :
    Inline (ps.flatMap Piece.text ++ [quote]) := by
  cases ps with
  | nil => exact ⟨by simpa using hquote.1, by simpa using hquote.2⟩
  | cons p ps =>
    rw [List.flatMap_cons, List.append_assoc]
    exact Piece.inline_append (h p (by simp)) _

/-- Taking out an escaped line end of one kind takes out the parts that are these. -/
theorem replace_texts (hb : Break b) (hquote : quote = '"' ∨ quote = '\'') (h : ∀ p ∈ ps, p.Stands quote)
    (hmatch : ∀ p ∈ ps, ∀ t, Inline t → p.text = '\\' :: b ∨ after ('\\' :: b) (p.text ++ t) = none) :
    Text.replace (ps.flatMap Piece.text ++ [quote]) ('\\' :: b) [] =
      (ps.filter fun p => p.text ≠ '\\' :: b).flatMap Piece.text ++ [quote] := by
  induction ps with
  | nil =>
    have hslash : '\\' ≠ quote := by
      rintro rfl
      simp at hquote
    simp [Text.replace, Text.replace.go, after, hslash]
  | cons p ps ih =>
    obtain ⟨hp, hrest⟩ := List.forall_mem_cons.1 h
    have hlines : quote ≠ '\n' ∧ quote ≠ '\r' := by
      rcases hquote with rfl | rfl <;> decide
    have hopen := inline_texts hrest hlines
    have htail := ih hrest fun q hq => hmatch q (by simp [hq])
    rw [List.flatMap_cons, List.append_assoc]
    by_cases htext : p.text = '\\' :: b
    · rw [List.filter_cons_of_neg (by simp [htext]), htext, Text.replace_old (by simp), htail]
      rfl
    · rw [List.filter_cons_of_pos (by simp [htext]), List.flatMap_cons, List.append_assoc,
        Piece.replace_text hb hp hopen ((hmatch p (by simp) _ hopen).resolve_left htext), htail]

/-- The parts of a literal that stay when it is written on one line. -/
def kept (ps : List Piece) : List Piece := ps.filter (!·.breaksLine)

theorem withoutContinuations_texts (hquote : quote = '"' ∨ quote = '\'') (h : ∀ p ∈ ps, p.Stands quote) :
    OneLine.withoutContinuations (quote :: (ps.flatMap Piece.text ++ [quote])) =
      quote :: ((kept ps).flatMap Piece.text ++ [quote]) := by
  have hopening : ∀ b t, Text.replace (quote :: t) ('\\' :: b) [] = quote :: Text.replace t ('\\' :: b) [] := by
    intro b t
    have hslash : '\\' ≠ quote := by
      rintro rfl
      simp at hquote
    simp [Text.replace, Text.replace.go, after, hslash]
  have hfirst : ∀ p ∈ ps.filter fun p => p.text ≠ ['\\', '\r', '\n'], p.Stands quote :=
    fun p hp => h p (List.mem_of_mem_filter hp)
  have hkept : (((ps.filter fun p => p.text ≠ ['\\', '\r', '\n']).filter fun p => p.text ≠ ['\\', '\n']).filter
      fun p => p.text ≠ ['\\', '\r']) = kept ps := by
    rw [List.filter_filter, List.filter_filter]
    refine List.filter_congr fun p hp => ?_
    have hline := Piece.breaksLine_iff (h p hp)
    rw [Bool.eq_iff_iff, Bool.not_eq_true', ← Bool.not_eq_true, hline]
    simp only [Bool.and_eq_true, decide_eq_true_eq, not_or]
    constructor
    · rintro ⟨⟨hreturn, hfeed⟩, hboth⟩
      exact ⟨hboth, hfeed, hreturn⟩
    · rintro ⟨hboth, hfeed, hreturn⟩
      exact ⟨⟨hreturn, hfeed⟩, hboth⟩
  -- the pair goes first, so that what is left behind a carriage return is no line feed
  unfold OneLine.withoutContinuations
  rw [hopening, replace_texts .both hquote h fun p hp t ht => Piece.text_eq_or .both (h p hp) (by simp) ht,
    hopening, replace_texts .feed hquote hfirst fun p hp t ht => Piece.text_eq_or .feed (hfirst p hp) (by simp) ht,
    hopening, replace_texts .carriage hquote (fun p hp => hfirst p (List.mem_of_mem_filter hp)) fun p hp t ht =>
      Piece.text_eq_or .carriage (hfirst p (List.mem_of_mem_filter hp))
        (fun _ => by simpa using (List.mem_filter.1 (List.mem_of_mem_filter hp)).2) ht,
    hkept]

theorem valueOf_kept (ps : List Piece) : valueOf (kept ps) = valueOf ps := by
  induction ps with
  | nil => rfl
  | cons p ps ih =>
    unfold valueOf kept at ih ⊢
    cases hline : p.breaksLine with
    | false => rw [List.filter_cons_of_pos (by simp [hline]), List.flatMap_cons, List.flatMap_cons, ih]
    | true =>
      have hunits : p.units = [] := by
        cases p with
        | plain c => cases hline
        | escape c w =>
          rcases (by simpa [Piece.breaksLine] using hline : c = '\n' ∨ c = '\r') with rfl | rfl <;> rfl
      rw [List.filter_cons_of_neg (by simp [hline]), List.flatMap_cons, hunits, ih, List.nil_append]

/-- A literal on one line is a literal, whose parts are those that stay, read again. -/
theorem pieces?_withoutContinuations {t : Text} (h : pieces? t = some ps) :
    pieces? (OneLine.withoutContinuations t) = some (reread (kept ps)) := by
  unfold pieces? at h
  split at h
  · rename_i quote r
    split at h
    · rename_i hquote
      obtain ⟨hstands, rfl⟩ := body?_eq_some h
      have hoctal : Lexeme.isOctalDigit quote = false := by
        rcases hquote with rfl | rfl <;> decide
      rw [withoutContinuations_texts hquote hstands, pieces?, if_pos hquote]
      refine body?_reread hoctal (fun p hp => ?_) ?_
      · obtain ⟨hmem, hline⟩ := List.mem_filter.1 hp
        exact ⟨hstands p hmem, by simpa using hline⟩
      · simpa using Nat.lt_succ_of_le (length_le_texts (kept ps))
    · cases h
  · cases h

/-- A string literal is written on one line as a string literal, wherever it stands. It has the value that it had
where, the escaped line ends taken out, no octal escape stands before a digit that it takes up; and only there. -/
theorem write_string {ts : List Tree} (h : pieces? (Tree.text (.node .string ts)) = some ps)
    (parent : Option Kind) (next : Option Tree) (last : Option Nat) :
    ∃ written qs, OneLine.write parent next (.node .string ts) last =
        (OneLine.spaced last (Tree.start (.node .string ts)) written, some (Tree.stop (.node .string ts))) ∧
      pieces? written = some qs ∧ (valueOf qs = valueOf ps ↔ Apart (kept ps)) := by
  refine ⟨_, _, rfl, pieces?_withoutContinuations h, ?_⟩
  rw [← valueOf_kept ps]
  exact valueOf_reread_iff (kept ps)

/-! ### Digits behind an octal escape -/

private def zeroThen (digit : Text) : List Tree :=
  [.leaf ⟨.mark, [], ['\''], 0⟩, .leaf ⟨.escapeSequence, [], "\\0".toList, 1⟩,
    .leaf ⟨.escapeSequence, [], "\\\n".toList, 3⟩, .leaf ⟨.stringFragment, [], digit, 5⟩,
    .leaf ⟨.mark, [], ['\''], 6⟩]

/-- A digit that is no octal one is not taken up. -/
theorem write_string_eight :
    pieces? (Tree.text (.node .string (zeroThen ['8']))) =
      some [.escape '0' [], .escape '\n' [], .plain '8'] ∧
    ∃ written qs, OneLine.write none none (.node .string (zeroThen ['8'])) none =
        (OneLine.spaced none 0 written, some 7) ∧
      pieces? written = some qs ∧ valueOf qs = [0, 56] := by
  have hparts : pieces? (Tree.text (.node .string (zeroThen ['8']))) =
      some [.escape '0' [], .escape '\n' [], .plain '8'] := by decide
  obtain ⟨written, qs, hwritten, hqs, hvalue⟩ := write_string hparts none none none
  exact ⟨hparts, written, qs, hwritten, hqs, hvalue.2 (by decide)⟩

private def oneSource : Text := "function f()\x7b'use server';return'\\0\\\n1'\x7d".toList

/-- In a function that is taken out, a literal of a zero character and a one turns into one of another character. -/
theorem oneLine_string_octal : ∃ tree f s, Js.parse oneSource = some tree ∧
    f ∈ Directive.topmost "use server".toList tree ∧ s ∈ f.collect (·.isKind .string) ∧
    value? s.text = some [0, 49] ∧ value? (s.oneLine none) = some [1] := by
  have hfound : ((Js.parse oneSource).any fun tree => (Directive.topmost "use server".toList tree).any fun f =>
      (f.collect (·.isKind .string)).any fun s =>
        decide (value? s.text = some [0, 49]) && decide (value? (s.oneLine none) = some [1])) = true := by
    decide +kernel
  obtain ⟨tree, htree, hfound⟩ := (Option.any_eq_true _ _).1 hfound
  obtain ⟨f, hf, hfound⟩ := List.any_eq_true.1 hfound
  obtain ⟨s, hs, hfound⟩ := List.any_eq_true.1 hfound
  simp only [Bool.and_eq_true, decide_eq_true_eq] at hfound
  exact ⟨tree, f, s, htree, hf, hs, hfound.1, hfound.2⟩

end StringLiteral

end Js

end ServerSplit
