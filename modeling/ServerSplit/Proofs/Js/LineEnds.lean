import ServerSplit.Proofs.Js.Continuations
import ServerSplit.Proofs.Js.Words

/-! Line ends in what is written on one line. From strings and from the escapes of templates the escaped line ends
are taken out, and in all other tokens every line end is replaced. An escape of a question mark in a template
takes the line feed behind it along, and that one is neither. -/
namespace ServerSplit.Js

open Text (after)

/-- A line feed or a carriage return. -/
def isBreak (c : Char) : Bool := c = '\n' || c = '\r'

/-- Every line feed and carriage return stands behind a backslash; a pair of them counts as one. -/
def escapesBreaks : Text → Bool
  | '\\' :: '\r' :: '\n' :: t => escapesBreaks t
  | '\\' :: '\n' :: t => escapesBreaks t
  | '\\' :: '\r' :: t => escapesBreaks t
  | c :: t => !isBreak c && escapesBreaks t
  | [] => true

/-! ### Taking out escaped line ends -/

/-- A text of which all line ends are escaped and of the given sorts. -/
inductive Escaped (allowed : Text → Prop) : Text → Prop
  | nil : Escaped allowed []
  | plain {c : Char} {t : Text} (hc : isBreak c = false) (h : Escaped allowed t) : Escaped allowed (c :: t)
  | escaped {b t : Text} (hb : Break b) (hallowed : allowed b) (h : Escaped allowed t) :
    Escaped allowed ('\\' :: b ++ t)

namespace Escaped

variable {allowed : Text → Prop} {b t : Text}

theorem of_escapesBreaks (h : escapesBreaks t = true) : Escaped (fun _ => True) t := by
  fun_induction escapesBreaks t with
  | case1 t ih => exact .escaped .both trivial (ih h)
  | case2 t ih => exact .escaped .feed trivial (ih h)
  | case3 t _ ih => exact .escaped .carriage trivial (ih h)
  | case4 c t _ _ _ ih =>
    simp only [Bool.and_eq_true, Bool.not_eq_true'] at h
    exact .plain h.1 (ih h.2)
  | case5 => exact .nil

theorem of_forall (h : ∀ c ∈ t, isBreak c = false) : Escaped allowed t := by
  induction t with
  | nil => exact .nil
  | cons c t ih =>
    obtain ⟨hc, ht⟩ := List.forall_mem_cons.1 h
    exact .plain hc (ih ht)

theorem inline (h : Escaped allowed t) : Inline t := by
  cases h with
  | nil => exact ⟨by simp, by simp⟩
  | plain hc =>
    simp only [isBreak, Bool.or_eq_false_iff, decide_eq_false_iff_not] at hc
    exact ⟨by simpa using hc.1, by simpa using hc.2⟩
  | escaped => exact ⟨by simp, by simp⟩

theorem forall_of_none (h : Escaped allowed t) (hnone : ∀ b, Break b → ¬ allowed b) : ∀ c ∈ t, isBreak c = false := by
  induction h with
  | nil => simp
  | plain hc _ ih => exact List.forall_mem_cons.2 ⟨hc, ih⟩
  | escaped hb hallowed => exact (hnone _ hb hallowed).elim

/-- One sort of line end is taken out; before a lone carriage return the pair has to be taken out. -/
theorem replace (h : Escaped allowed t) (hb : Break b) (hpair : b = ['\r'] → ¬ allowed ['\r', '\n']) :
    Escaped (fun d => allowed d ∧ d ≠ b) (t.replace ('\\' :: b) []) := by
  induction h with
  | nil => exact .nil
  | @plain c t hc h ih =>
    have hafter : after ('\\' :: b) (c :: t) = none := by
      by_cases hslash : '\\' = c
      · subst hslash
        simpa [after] using hb.after_eq_none h.inline
      · simp [after, hslash]
    rw [Text.replace_cons hafter]
    exact .plain hc ih
  | @escaped d t hd hallowed h ih =>
    by_cases hbd : d = b
    · rw [hbd, Text.replace_old (by simp)]
      exact ih
    · have hother : after b (d ++ t) = none := by
        have hreturn := Break.feed.after_eq_none h.inline
        cases hb <;> cases hd <;>
          first | exact (hbd rfl).elim | exact (hpair rfl hallowed).elim | simp [after, hreturn]
      rw [Text.replace_append (w := '\\' :: d) fun u c v hw => ?_]
      · exact .escaped hd ⟨hallowed, hbd⟩ ih
      · obtain ⟨rfl, hw⟩ | ⟨u, rfl, htail⟩ := List.cons_eq_append_iff.1 hw
        · cases hw
          simpa [after] using hother
        · have hc : '\\' ≠ c := by
            rintro rfl
            have hmem : '\\' ∈ d := by rw [htail]; simp
            cases hd <;> simp at hmem
          simp [after, hc]

/-- Where all line ends are escaped, none is left. -/
theorem withoutContinuations (h : Escaped allowed t) : ∀ c ∈ OneLine.withoutContinuations t, isBreak c = false := by
  have hall := ((h.replace .both (by simp)).replace .feed (by simp)).replace .carriage (by simp)
  refine hall.forall_of_none fun b hb hallowed => ?_
  obtain ⟨⟨⟨-, hboth⟩, hfeed⟩, hreturn⟩ := hallowed
  cases hb with
  | both => exact hboth rfl
  | feed => exact hfeed rfl
  | carriage => exact hreturn rfl

end Escaped

/-! ### Escapes -/

namespace Lexeme

/-- What an escape is made of: its first character, what belongs to it, and what follows. -/
inductive Escape : Char → Text → Text → Prop
  | hex {v r : Text} (hlength : v.length = 2) (hall : v.all isHexDigit = true) : Escape 'x' v r
  | four {v r : Text} (hlength : v.length = 4) (hall : v.all isHexDigit = true) : Escape 'u' v r
  | braced {ds r : Text} (hall : ds.all isHexDigit = true) (hds : ds ≠ []) :
    Escape 'u' ('\x7b' :: ds ++ ['\x7d']) r
  | octal {c : Char} {v r : Text} (hc : isOctalDigit c = true) (hall : v.all isOctalDigit = true) : Escape c v r
  | ended {c d : Char} {r : Text} (hc : c = '\r' ∨ c = '?') (hd : isLineEnd d = true) : Escape c [d] r
  | alone {c : Char} {r : Text} (hc : ¬ (c = 'x' ∨ c = 'u' ∨ isOctalDigit c = true))
    (hr : c = '\r' ∨ c = '?' → r.head?.any isLineEnd = false) : Escape c [] r

theorem escape_of_unicodeEscape {t w r : Text} (h : unicodeEscape ('u' :: t) = some (w, r)) :
    ∃ v, w = 'u' :: v ∧ Escape 'u' v r := by
  simp only [unicodeEscape, Option.orElse_eq_orElse, Option.orElse_eq_or, Option.or_eq_some_iff] at h
  rcases h with h | ⟨-, h⟩
  · obtain ⟨a, t', v, ha, hv, rfl⟩ := andThen_eq_some h
    obtain ⟨hlength, hall, -⟩ := Piece.count_eq_some (w := v) (by rw [hv]; rfl)
    rw [(exactly_eq_some ha).1]
    exact ⟨v, rfl, .four hlength hall⟩
  · obtain ⟨a, t', v, ha, hv, rfl⟩ := andThen_eq_some h
    obtain ⟨ds, t'', b, hds, hb, rfl⟩ := andThen_eq_some hv
    rw [(exactly_eq_some ha).1, (exactly_eq_some hb).1]
    unfold run at hds
    split at hds
    · cases hds
    · rename_i hne
      cases hds
      exact ⟨_, rfl, .braced List.all_takeWhile hne⟩

theorem escape_of_body {t w r : Text} (h : escapeSequence.body t = some (w, r)) :
    ∃ c v, w = c :: v ∧ Escape c v r := by
  unfold escapeSequence.body at h
  split at h
  · cases h
  · rename_i t
    obtain ⟨⟨v, r⟩, hv, h⟩ := Option.map_eq_some_iff.1 h
    cases h
    obtain ⟨hlength, hall, -⟩ := Piece.count_eq_some (w := v) (by rw [hv]; rfl)
    exact ⟨'x', v, rfl, .hex hlength hall⟩
  · obtain ⟨v, rfl, hescape⟩ := escape_of_unicodeEscape h
    exact ⟨'u', v, rfl, hescape⟩
  · rename_i c t hx hu
    split at h
    · cases h
    · split at h
      · rename_i hc
        cases h
        exact ⟨c, _, rfl, .octal hc List.all_takeWhile⟩
      · rename_i hoctal
        have hc : ¬ (c = 'x' ∨ c = 'u' ∨ isOctalDigit c = true) := by
          rintro (rfl | rfl | h)
          · exact hx rfl
          · exact hu rfl
          · exact hoctal h
        split at h
        · rename_i hends
          split at h
          · rename_i d t
            split at h
            · rename_i hd
              cases h
              exact ⟨c, [d], rfl, .ended (by simpa using hends) hd⟩
            · rename_i hd
              cases h
              exact ⟨c, [], rfl, .alone hc fun _ => by simpa using hd⟩
          · cases h
            exact ⟨c, [], rfl, .alone hc fun _ => rfl⟩
        · rename_i hends
          cases h
          refine ⟨c, [], rfl, .alone hc fun hends' => (hends ?_).elim⟩
          simpa using hends'

theorem escape_of_reads {t w r : Text} (h : escapeSequence t = some (w, r)) :
    ∃ c v, w = '\\' :: c :: v ∧ Escape c v r := by
  unfold escapeSequence at h
  split at h
  · obtain ⟨⟨w, r⟩, hbody, h⟩ := Option.map_eq_some_iff.1 h
    cases h
    obtain ⟨c, v, rfl, hescape⟩ := escape_of_body hbody
    exact ⟨c, v, rfl, hescape⟩
  · cases h

/-- The line ends in an escape. -/
theorem Escape.breaks {c : Char} {v r : Text} (h : Escape c v r) :
    (∀ d ∈ c :: v, isBreak d = false) ∨ (c = '\n' ∧ v = []) ∨
      (c = '\r' ∧ (v = [] ∨ v = ['\n'] ∨ ∃ d, isLineSeparator d = true ∧ v = [d])) ∨ c = '?' ∧ v = ['\n'] := by
  have hsafe {p : Char → Bool} (hn : p '\n' = false) (hr : p '\r' = false) {w : Text} (hw : w.all p = true) :
      ∀ d ∈ w, isBreak d = false := by
    intro d hd
    have hpd := List.all_eq_true.1 hw d hd
    by_contra hbreak
    simp only [isBreak, Bool.not_eq_false, Bool.or_eq_true, decide_eq_true_eq] at hbreak
    rcases hbreak with rfl | rfl <;> simp_all
  cases h with
  | hex hlength hall | four hlength hall => exact .inl (List.forall_mem_cons.2 ⟨rfl, hsafe rfl rfl hall⟩)
  | braced hall =>
    refine .inl (List.forall_mem_cons.2 ⟨rfl, List.forall_mem_cons.2 ⟨rfl, List.forall_mem_append.2 ⟨?_, ?_⟩⟩⟩)
    · exact hsafe rfl rfl hall
    · simp [isBreak]
  | octal hc hall =>
    exact .inl (hsafe (p := isOctalDigit) rfl rfl (by simp only [List.all_cons, hc, hall, Bool.and_self]))
  | @ended c d r hc hd =>
    rcases (by simpa [isLineEnd] using hd : d = '\n' ∨ isLineSeparator d = true) with rfl | hd
    · rcases hc with rfl | rfl <;> simp
    · rcases hc with rfl | rfl
      · exact .inr (.inr (.inl ⟨rfl, .inr (.inr ⟨d, hd, rfl⟩)⟩))
      · refine .inl (hsafe (p := fun d => d = '?' || isLineSeparator d) rfl rfl ?_)
        simp [hd]
  | alone hc hr =>
    by_cases hfeed : c = '\n'
    · exact .inr (.inl ⟨hfeed, rfl⟩)
    · by_cases hreturn : c = '\r'
      · exact .inr (.inr (.inl ⟨hreturn, .inl rfl⟩))
      · exact .inl (by simp [isBreak, hfeed, hreturn])

/-- The line ends of an escape are escaped, but for a line feed behind a question mark. -/
theorem Escape.escaped {c : Char} {v r : Text} (h : Escape c v r) :
    Escaped (fun _ => True) ('\\' :: c :: v) ∨ c = '?' ∧ v = ['\n'] := by
  rcases h.breaks with hnone | ⟨rfl, rfl⟩ | ⟨rfl, hv⟩ | hquestion
  · exact .inl (.plain rfl (.of_forall hnone))
  · exact .inl (.escaped .feed trivial .nil)
  · rcases hv with rfl | rfl | ⟨d, hd, rfl⟩
    · exact .inl (.escaped .carriage trivial .nil)
    · exact .inl (.escaped .both trivial .nil)
    · rcases (by simpa [isLineSeparator] using hd : d = '\u2028' ∨ d = '\u2029') with rfl | rfl
      · exact .inl (.escaped .carriage trivial (.plain rfl .nil))
      · exact .inl (.escaped .carriage trivial (.plain rfl .nil))
  · exact .inr hquestion

end Lexeme

namespace OneLine

open Tree

/-- Of all escapes only that of a question mark keeps a line end. -/
theorem break_escape_iff {t r : Text} (h : Lexeme.escapeSequence (t ++ r) = some (t, r)) :
    (∃ c ∈ withoutContinuations t, isBreak c = true) ↔ t = ['\\', '?', '\n'] := by
  obtain ⟨c, v, rfl, hescape⟩ := Lexeme.escape_of_reads h
  constructor
  · rintro ⟨d, hd, hbreak⟩
    rcases hescape.escaped with hescaped | ⟨rfl, rfl⟩
    · rw [hescaped.withoutContinuations d hd] at hbreak
      cases hbreak
    · rfl
  · rintro he
    cases he
    exact ⟨'\n', by decide, rfl⟩

theorem notMem_replaceLineEnds {new : Text} (hfeed : '\n' ∉ new) (hreturn : '\r' ∉ new) (t : Text) :
    ∀ c ∈ replaceLineEnds new t, isBreak c = false := by
  intro c hc
  by_contra hbreak
  simp only [isBreak, Bool.not_eq_false, Bool.or_eq_true, decide_eq_true_eq] at hbreak
  rcases hbreak with rfl | rfl
  · exact Text.notMem_replace_self hfeed _ hc
  · rcases Text.mem_of_mem_replace (by simp) hc with hc | hc
    · exact Text.notMem_replace_self hreturn _ hc
    · exact hreturn hc

/-- Only the escapes of templates keep line ends. -/
theorem tokenText_eq_of_break {parent : Option Kind} {u : Token} {c : Char} (hc : c ∈ tokenText parent u)
    (hbreak : isBreak c = true) : parent = some .templateString ∧ u.kind = .escapeSequence ∧
      c ∈ withoutContinuations u.text := by
  unfold tokenText at hc
  split at hc
  · rename_i h
    exact ⟨h.1, h.2, hc⟩
  · split at hc
    · rw [notMem_replaceLineEnds (by simp) (by simp) _ c hc] at hbreak
      cases hbreak
    · rw [notMem_replaceLineEnds (by simp) (by simp) _ c hc] at hbreak
      cases hbreak

/-- A token that stands in a node of a tree is among the words of the tree. -/
theorem mem_words_of_holds {t : Tree} (hliteral : t.Every IsLiteral) {k : Kind} {ts : List Tree} {u : Token}
    (h : Holds t (.node k ts)) (hk : ¬ (k = .string ∨ k = .regex)) (hu : .leaf u ∈ ts) (hcode : u.kind ≠ .comment) :
    .ofToken (some k) u ∈ words t := by
  obtain ⟨p, b, pre, post, hitems⟩ := items_of_holds hliteral h none []
  obtain ⟨as, bs, rfl⟩ := List.append_of_mem hu
  obtain ⟨pre', hpre'⟩ := itemsOf_append (some k) as (.leaf u) bs
  rw [words, hitems, items, if_neg hk, hpre', items, if_neg hcode]
  simp

/-- A function of whose strings all line ends are escaped is written on one line, but for each escape in a
template of a question mark that takes a line feed along. -/
theorem oneLine_breaks {source : Text} {tree f : Tree} (h : parse source = some tree) (hf : f ∈ tree.functions)
    (hstrings : ∀ ts, Holds f (.node .string ts) → escapesBreaks (Tree.text (.node .string ts)) = true)
    (next : Option Tree) : (∃ c ∈ f.oneLine next, isBreak c = true) ↔
      ∃ ts u, Holds f (.node .templateString ts) ∧ .leaf u ∈ ts ∧ u.kind = .escapeSequence ∧
        u.text = ['\\', '?', '\n'] := by
  obtain ⟨hholds, hfunction⟩ := mem_collect.1 hf
  have hliteral : f.Every IsLiteral := fun u hu => parse_literal h u (hholds.trans hu)
  have hmem {c : Char} (hc : isBreak c = true) : c ∈ f.oneLine next ↔ ∃ w ∈ words f, c ∈ w.text := by
    have hspace : c ≠ ' ' := by rintro rfl; cases hc
    have hsemicolon : c ≠ ';' := by rintro rfl; cases hc
    rw [oneLine_eq_line (parse_ordered h hholds), mem_line hspace hsemicolon, wordsIn_items]
    rfl
  constructor
  · rintro ⟨c, hc, hbreak⟩
    obtain ⟨w, hw, hcw⟩ := (hmem hbreak).1 hc
    cases of_mem_items hw with
    | @alone u hu hcode =>
      have hcu : c ∈ tokenText none u := hcw
      obtain ⟨hparent, -⟩ := tokenText_eq_of_break hcu hbreak
      cases hparent
    | @token k ts u hts hu hcode =>
      obtain ⟨hparent, hkind, hcu⟩ := tokenText_eq_of_break hcw hbreak
      cases hparent
      obtain ⟨r, hreads⟩ := IsTemplate.escape_of_mem (hliteral _ hts) hu hkind
      exact ⟨ts, u, hts, hu, hkind, (break_escape_iff hreads).1 ⟨c, hcu, hbreak⟩⟩
    | @literal k ts hts hk =>
      have hnone : isBreak c = false := by
        rcases hk with rfl | rfl
        · exact (Escaped.of_escapesBreaks (hstrings ts hts)).withoutContinuations c hcw
        · exact notMem_replaceLineEnds (by simp) (by simp) _ c hcw
      rw [hnone] at hbreak
      cases hbreak
  · rintro ⟨ts, u, hts, hu, hkind, htext⟩
    have hword := mem_words_of_holds hliteral hts (by simp) hu (by simp [hkind])
    have htokenText : '\n' ∈ tokenText (some .templateString) u := by
      rw [tokenText, if_pos ⟨rfl, hkind⟩, htext]
      decide
    exact ⟨'\n', (hmem rfl).2 ⟨_, hword, htokenText⟩, rfl⟩

private def brokenSource : Text :=
  "function f()\x7b/*\n*/'use server';return x('a\\\r\nb',\n`c\r\n\\\nd`)//\n\x7d".toList

/-- Line ends in a comment, between tokens, in a string and in a template. -/
theorem oneLine_breaks_none : ∃ tree f, parse brokenSource = some tree ∧ f ∈ tree.functions ∧
    ∀ c ∈ f.oneLine none, isBreak c = false := by
  have hfound : ((parse brokenSource).any fun tree => tree.functions.any fun f =>
      ((f.collect (·.isKind .string)).all fun s => escapesBreaks s.text) &&
        ((f.collect (·.isKind .templateString)).all fun t => t.children.all fun u =>
          u.text ≠ ['\\', '?', '\n'])) = true := by
    decide +kernel
  obtain ⟨tree, htree, hfound⟩ := (Option.any_eq_true _ _).1 hfound
  obtain ⟨f, hf, hfound⟩ := List.any_eq_true.1 hfound
  simp only [Bool.and_eq_true, List.all_eq_true, decide_eq_true_eq] at hfound
  obtain ⟨hstrings, htemplates⟩ := hfound
  have hbreaks := oneLine_breaks htree hf
    (fun ts hts => hstrings _ (mem_collect.2 ⟨hts, rfl⟩)) none
  refine ⟨tree, f, htree, hf, fun c hc => ?_⟩
  by_contra hbreak
  obtain ⟨ts, u, hts, hu, -, htext⟩ := hbreaks.1 ⟨c, hc, by simpa using hbreak⟩
  refine htemplates _ (mem_collect.2 ⟨hts, rfl⟩) _ hu ?_
  simpa [Tree.text, tokens] using htext

private def questionSource : Text := "function f()\x7b'use server';return`\\?\n`\x7d".toList

/-- A function that is taken out, without a line end in any of its strings, is not written on one line. -/
theorem oneLine_question_break : ∃ tree f, parse questionSource = some tree ∧
    f ∈ Directive.topmost "use server".toList tree ∧
    (∀ s ∈ f.collect (·.isKind .string), ∀ c ∈ s.text, isBreak c = false) ∧
    f.oneLine none = "function f()\x7b'use server';return`\\?\n`;\x7d".toList ∧ '\n' ∈ f.oneLine none := by
  have hfound : ((parse questionSource).any fun tree => (Directive.topmost "use server".toList tree).any fun f =>
      ((f.collect (·.isKind .string)).all fun s => s.text.all fun c => !isBreak c) &&
        decide (f.oneLine none = "function f()\x7b'use server';return`\\?\n`;\x7d".toList)) = true := by
    decide +kernel
  obtain ⟨tree, htree, hfound⟩ := (Option.any_eq_true _ _).1 hfound
  obtain ⟨f, hf, hfound⟩ := List.any_eq_true.1 hfound
  simp only [Bool.and_eq_true, List.all_eq_true, Bool.not_eq_true', decide_eq_true_eq] at hfound
  obtain ⟨hstrings, hline⟩ := hfound
  refine ⟨tree, f, htree, hf, hstrings, hline, ?_⟩
  rw [hline]
  decide

end OneLine

end ServerSplit.Js
