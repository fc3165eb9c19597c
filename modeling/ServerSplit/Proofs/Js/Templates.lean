import ServerSplit.Proofs.Js.LineEnds
import ServerSplit.Proofs.Js.TemplateValue

/-! Templates written on one line. The tokens between two substitutions are written one behind another; what their
text stands for then differs only where parts stand together that an escaped line end kept apart. -/
namespace ServerSplit.Js

namespace TemplateLiteral

open OneLine Lexeme

/-! ### Texts and their line ends -/

variable {t : Text}

theorem notMem_of_forall (h : ∀ c ∈ t, isBreak c = false) : '\n' ∉ t ∧ '\r' ∉ t := by
  constructor
  · intro hmem
    cases h _ hmem
  · intro hmem
    cases h _ hmem

theorem withoutContinuations_of_forall (h : ∀ c ∈ t, isBreak c = false) : withoutContinuations t = t := by
  obtain ⟨hfeed, hreturn⟩ := notMem_of_forall h
  unfold withoutContinuations
  rw [Text.replace_of_notMem (c := '\n') (by simp) hfeed, Text.replace_of_notMem (c := '\n') (by simp) hfeed,
    Text.replace_of_notMem (c := '\r') (by simp) hreturn]

theorem mem_raw_iff : '\n' ∈ raw t ↔ ∃ c ∈ t, isBreak c = true := by
  fun_induction raw t with
  | case1 t ih => simp [isBreak]
  | case2 t _ ih => simp [isBreak]
  | case3 c t _ hc ih =>
    have hbreak : isBreak c = true ↔ '\n' = c := by
      simp only [isBreak, Bool.or_eq_true, decide_eq_true_eq]
      exact ⟨fun h => (h.resolve_right hc).symm, fun h => .inl h.symm⟩
    rw [List.mem_cons, ih, List.exists_mem_cons_iff, hbreak]
  | case4 => simp

/-- Replacing line ends replaces the line feeds of the raw string. -/
theorem replaceLineEnds_eq {new : Text} (hnew : ∀ c ∈ new, isBreak c = false) (t : Text) :
    replaceLineEnds new t = (raw t).flatMap fun c => if c = '\n' then new else [c] := by
  obtain ⟨hfeed, hreturn⟩ := notMem_of_forall hnew
  unfold replaceLineEnds
  have hpair {t : Text} : Text.replace ('\r' :: '\n' :: t) ['\r', '\n'] new = new ++ t.replace ['\r', '\n'] new :=
    Text.replace_old (by simp) t new
  have hlone {c : Char} {t : Text} : Text.replace (c :: t) [c] new = new ++ t.replace [c] new :=
    Text.replace_old (by simp) t new
  have hother {c d : Char} {old t : Text} (h : d ≠ c) :
      Text.replace (c :: t) (d :: old) new = c :: t.replace (d :: old) new :=
    Text.replace_append_of_notMem (w := [c]) (by simpa using h) t new
  fun_induction raw t with
  | case1 t ih =>
    rw [List.flatMap_cons, if_pos rfl, ← ih, hpair, Text.replace_append_of_notMem hreturn,
      Text.replace_append_of_notMem hfeed]
  | case2 t hnext ih =>
    have hafter : Text.after ['\r', '\n'] ('\r' :: t) = none := by
      cases t with
      | nil => rfl
      | cons c t =>
        have hc : '\n' ≠ c := by
          rintro rfl
          exact hnext t rfl
        simp [Text.after, hc]
    rw [List.flatMap_cons, if_pos rfl, ← ih, Text.replace_cons hafter, hlone, Text.replace_append_of_notMem hfeed]
  | case3 c t _ hc ih =>
    have hreturn' : '\r' ≠ c := fun h => hc h.symm
    rw [List.flatMap_cons, ← ih, hother hreturn', hother hreturn']
    split
    · rename_i hfeed'
      rw [hfeed', hlone]
    · rename_i hfeed'
      rw [hother (Ne.symm hfeed')]
      rfl
  | case4 => rfl

/-! ### Tokens -/

/-- A fragment or an escape as it is read in front of a text. -/
def ReadsAt (u : Token) (r : Text) : Prop :=
  (u.kind = .stringFragment ∧ templateText (u.text ++ r) = some (u.text, r)) ∨
    (u.kind = .escapeSequence ∧ escapeSequence (u.text ++ r) = some (u.text, r))

/-- What is written for a fragment or an escape. -/
def written (u : Token) : Text := tokenText (some .templateString) u

/-- The parts that a text is read as in front of another one, and the parts that are written for it. -/
structure Parts (t line after : Text) (ps qs : List Piece) : Prop where
  source : raw t = ps.flatMap Piece.text
  line : line = qs.flatMap Piece.text
  stands : ∀ p ∈ ps, Stands p
  written : List.Forall₂ Written (StringLiteral.kept ps) qs
  closed : Closed ps
  /-- No substitution opens where the text ends. -/
  ends : ps.getLast? = some (.plain '$') → after.head? ≠ some '\x7b'
  /-- No pair of line ends is torn where the text ends. -/
  whole : ¬ (t.getLast? = some '\r' ∧ after.head? = some '\n')

theorem Parts.append {a b v w r : Text} {ps qs ps' qs' : List Piece} (h : Parts a v (b ++ r) ps qs)
    (h' : Parts b w r ps' qs') : Parts (a ++ b) (v ++ w) r (ps ++ ps') (qs ++ qs') where
  source := by
    rw [raw_append, h.source, h'.source, List.flatMap_append]
    rintro ⟨hlast, hhead⟩
    exact h.whole ⟨hlast, by rw [List.head?_append, hhead]; rfl⟩
  line := by rw [h.line, h'.line, List.flatMap_append]
  stands := List.forall_mem_append.2 ⟨h.stands, h'.stands⟩
  written := by
    rw [StringLiteral.kept, List.filter_append]
    exact List.rel_append h.written h'.written
  closed := by
    refine closed_append.2 ⟨h.closed, h'.closed, ?_⟩
    rintro ⟨hlast, hhead⟩
    have hraw : (raw b).head? = some '\x7b' := by
      rw [h'.source]
      exact head?_texts.2 hhead
    refine h.ends hlast ?_
    rw [List.head?_append, head?_of_raw (by decide) hraw]
    rfl
  ends := by
    intro hlast
    rw [List.getLast?_append] at hlast
    cases hps' : ps'.getLast? with
    | some p =>
      rw [hps'] at hlast
      exact h'.ends (hps'.trans hlast)
    | none =>
      have hb : b = [] := by
        refine raw_eq_nil ?_
        rw [h'.source, List.getLast?_eq_none_iff.1 hps']
        rfl
      rw [hps'] at hlast
      have hends := h.ends hlast
      rwa [hb, List.nil_append] at hends
  whole := by
    rintro ⟨hlast, hhead⟩
    rw [List.getLast?_append] at hlast
    cases hb : b.getLast? with
    | some c =>
      rw [hb] at hlast
      exact h'.whole ⟨hb.trans hlast, hhead⟩
    | none =>
      rw [hb] at hlast
      rw [List.getLast?_eq_none_iff.1 hb] at h
      exact h.whole ⟨hlast, hhead⟩

/-- What is read in front of a fragment's end. -/
theorem fragment_of_reads {w r : Text} (h : templateText (w ++ r) = some (w, r)) :
    (∀ c ∈ w, ¬ (c = '\\' ∨ c = '`')) ∧ (∀ u v, w = u ++ '$' :: v → (v ++ r).head? ≠ some '\x7b') ∧
      r.head? ≠ some '\n' := by
  have hgo : ∀ t w r, templateText.go t = some (w, r) → (∀ c ∈ w, ¬ (c = '\\' ∨ c = '`')) ∧
      (∀ u v, w = u ++ '$' :: v → (v ++ r).head? ≠ some '\x7b') ∧ r.head? ≠ some '\n' := by
    intro t
    fun_induction templateText.go t with
    | case1 | case4 => simp
    | case2 t =>
      intro w r h
      cases h
      exact ⟨by simp, by simp, by simp⟩
    | case3 c t _ hc =>
      intro w r h
      cases h
      have hc' : '\n' ≠ c := by
        rintro rfl
        cases hc
      exact ⟨by simp, by simp, by simpa using hc'.symm⟩
    | case5 c t hopens hc _ ih =>
      intro w r h
      obtain ⟨⟨w, r⟩, hgo, h⟩ := Option.map_eq_some_iff.1 h
      cases h
      obtain ⟨hchars, hdollar, hend⟩ := ih w r hgo
      refine ⟨List.forall_mem_cons.2 ⟨fun h => hc (by simpa using h.symm), hchars⟩, fun u v hw => ?_, hend⟩
      obtain ⟨rfl, hw⟩ | ⟨u, rfl, htail⟩ := List.cons_eq_append_iff.1 hw
      · cases hw
        rw [← splits_templateTail hgo]
        intro hhead
        obtain ⟨t', rfl⟩ := List.head?_eq_some_iff.1 hhead
        exact hopens t' rfl rfl
      · exact hdollar u v htail
  unfold templateText at h
  obtain ⟨⟨w', r'⟩, hw, h⟩ := Option.bind_eq_some_iff.1 h
  simp only at h
  split at h
  · cases h
  · cases h
    exact hgo _ _ _ hw

/-- A dollar sign is followed by no brace in a raw string if it is not in the text. -/
theorem closed_raw {w : Text} (h : ∀ u v, w = u ++ '$' :: v → v.head? ≠ some '\x7b') :
    Closed ((raw w).map .plain) := by
  fun_induction raw w with
  | case1 w ih =>
    refine closed_cons.2 ⟨by simp, ih fun u v hw => h ('\r' :: '\n' :: u) v (by simp [hw])⟩
  | case2 w _ ih => exact closed_cons.2 ⟨by simp, ih fun u v hw => h ('\r' :: u) v (by simp [hw])⟩
  | case3 c w _ _ ih =>
    refine closed_cons.2 ⟨?_, ih fun u v hw => h (c :: u) v (by simp [hw])⟩
    rintro ⟨hc, hhead⟩
    cases hc
    refine h [] w rfl (head?_of_raw (by decide) ?_)
    simpa using hhead
  | case4 => exact .nil

/-- How a character of a raw string is written. -/
def onLine (c : Char) : Piece := if c = '\n' then .escape 'n' [] else .plain c

theorem parts_of_fragment {w r : Text} (h : templateText (w ++ r) = some (w, r)) :
    Parts w (replaceLineEnds ['\\', 'n'] w) r ((raw w).map .plain) ((raw w).map onLine) := by
  obtain ⟨hchars, hdollar, hend⟩ := fragment_of_reads h
  refine ⟨?_, ?_, ?_, ?_, closed_raw ?_, ?_, ?_⟩
  · rw [texts_plain]
  · rw [replaceLineEnds_eq (by simp [isBreak]), List.flatMap_map]
    refine List.flatMap_congr fun c _ => ?_
    unfold onLine
    split <;> rfl
  · refine List.forall_mem_map.2 fun c hc => .plain ?_
    rintro (hslash | htick | hreturn)
    · rcases mem_of_mem_raw hc with hmem | rfl
      · exact hchars c hmem (.inl hslash)
      · cases hslash
    · rcases mem_of_mem_raw hc with hmem | rfl
      · exact hchars c hmem (.inr htick)
      · cases htick
    · exact notMem_raw w (hreturn ▸ hc)
  · have hkept : StringLiteral.kept ((raw w).map .plain) = (raw w).map .plain := by
      refine List.filter_eq_self.2 ?_
      exact List.forall_mem_map.2 fun c _ => rfl
    rw [hkept, List.forall₂_map_left_iff, List.forall₂_map_right_iff]
    refine List.forall₂_same.2 fun c _ => ?_
    unfold onLine
    split
    · rename_i hc
      exact .inr ⟨by rw [hc], rfl⟩
    · exact .inl rfl
  · intro u v hw hhead
    exact hdollar u v hw (by rw [List.head?_append, hhead]; rfl)
  · intro hlast
    rw [List.getLast?_map] at hlast
    obtain ⟨c, hc, he⟩ := Option.map_eq_some_iff.1 hlast
    cases he
    obtain ⟨u, rfl⟩ := List.getLast?_eq_some_iff.1 (getLast?_of_raw (by decide) hc)
    exact hdollar u [] rfl
  · exact fun hbreak => hend hbreak.2

/-- Parts that hold no line end are written as they are. -/
theorem parts_of_unbroken {t : Text} {ps : List Piece} (h : ∀ c ∈ t, isBreak c = false)
    (ht : t = ps.flatMap Piece.text) (hstands : ∀ p ∈ ps, Stands p) (hdollar : .plain '$' ∉ ps) (r : Text) :
    Parts t (withoutContinuations t) r ps ps where
  source := by rw [raw_of_notMem (notMem_of_forall h).2, ht]
  line := by rw [withoutContinuations_of_forall h, ht]
  stands := hstands
  written := by
    have hkept : StringLiteral.kept ps = ps := by
      refine List.filter_eq_self.2 fun p hp => ?_
      rw [ht] at h
      have hp' : ∀ c ∈ p.text, isBreak c = false := fun c hc => h c (List.mem_flatMap.2 ⟨p, hp, hc⟩)
      cases p with
      | plain => rfl
      | escape c w => simpa [Piece.breaksLine, isBreak] using hp' c (by simp [Piece.text])
    rw [hkept]
    exact List.forall₂_same.2 fun p _ => .inl rfl
  closed := closed_of_notMem hdollar
  ends hlast := (hdollar (List.mem_of_getLast? hlast)).elim
  whole hbreak := (notMem_of_forall h).2 (List.mem_of_getLast? hbreak.1)

/-- The parts of an escape without line ends. -/
theorem pieces_of_unbroken {c : Char} {v r : Text} (h : Escape c v r) (hnone : ∀ d ∈ c :: v, isBreak d = false) :
    ∃ ps : List Piece, '\\' :: c :: v = ps.flatMap Piece.text ∧ (∀ p ∈ ps, Stands p) ∧ .plain '$' ∉ ps := by
  have hfirst : c ≠ '\r' := by
    rintro rfl
    cases hnone '\r' (by simp)
  cases h with
  | hex hlength hall =>
    exact ⟨[.escape 'x' v], by simp [Piece.text], by simpa using .hex hlength hall, by simp⟩
  | four hlength hall =>
    exact ⟨[.escape 'u' v], by simp [Piece.text], by simpa using .four hlength hall, by simp⟩
  | @braced ds r hall hds =>
    refine ⟨[.escape 'u' ('\x7b' :: ds ++ ['\x7d'])], by simp [Piece.text], ?_, by simp⟩
    exact List.forall_mem_singleton.2 (.braced hall hds)
  | octal hc hall =>
    refine ⟨.escape c [] :: v.map .plain, ?_, List.forall_mem_cons.2 ⟨.single ?_, ?_⟩, ?_⟩
    · rw [List.flatMap_cons, texts_plain]
      rfl
    · rintro (rfl | rfl | rfl) <;> cases hc
    · refine List.forall_mem_map.2 fun d hd => .plain ?_
      have hoctal := List.all_eq_true.1 hall d hd
      rintro (rfl | rfl | rfl) <;> cases hoctal
    · intro hmem
      obtain ⟨d, hd, he⟩ := List.mem_map.1 ((List.mem_cons.1 hmem).resolve_left (by simp))
      cases he
      cases List.all_eq_true.1 hall _ hd
  | @ended c d r hc hd =>
    obtain rfl : c = '?' := hc.resolve_left hfirst
    refine ⟨[.escape '?' [], .plain d], rfl, List.forall_mem_cons.2 ⟨.single (by decide), ?_⟩, ?_⟩
    · refine List.forall_mem_singleton.2 (.plain ?_)
      rintro (rfl | rfl | rfl) <;> cases hd
    · have hdollar : '$' ≠ d := by
        rintro rfl
        cases hd
      simpa using hdollar
  | alone hc hr =>
    refine ⟨[.escape c []], rfl, List.forall_mem_singleton.2 (.single ?_), by simp⟩
    rintro (rfl | rfl | rfl)
    · exact hc (.inl rfl)
    · exact hc (.inr (.inl rfl))
    · exact hfirst rfl

theorem parts_of_escape {w r : Text} (h : escapeSequence (w ++ r) = some (w, r)) :
    ∃ ps qs, Parts w (withoutContinuations w) r ps qs := by
  obtain ⟨c, v, rfl, hescape⟩ := escape_of_reads h
  rcases hescape.breaks with hnone | ⟨rfl, rfl⟩ | ⟨rfl, hv⟩ | ⟨rfl, rfl⟩
  · have hunbroken : ∀ d ∈ '\\' :: c :: v, isBreak d = false := List.forall_mem_cons.2 ⟨rfl, hnone⟩
    suffices ∃ ps : List Piece, '\\' :: c :: v = ps.flatMap Piece.text ∧ (∀ p ∈ ps, Stands p) ∧
        .plain '$' ∉ ps by
      obtain ⟨ps, htext, hstands, hdollar⟩ := this
      exact ⟨ps, ps, parts_of_unbroken hunbroken htext hstands hdollar r⟩
    exact pieces_of_unbroken hescape hnone
  · exact ⟨[.escape '\n' []], [], rfl, by decide, by simp [Stands.single], .nil, by decide, by simp, by simp⟩
  · rcases hv with rfl | rfl | ⟨d, hd, rfl⟩
    · refine ⟨[.escape '\n' []], [], rfl, by decide, by simp [Stands.single], .nil, by decide, by simp, ?_⟩
      rintro ⟨-, hhead⟩
      cases hescape with
      | octal hc => cases hc
      | alone hc hr =>
        have hline := hr (.inl rfl)
        rw [hhead] at hline
        cases hline
    · exact ⟨[.escape '\n' []], [], rfl, by decide, by simp [Stands.single], .nil, by decide, by simp, by simp⟩
    · refine ⟨[.escape '\n' [], .plain d], [.plain d], ?_⟩
      have hstands : ∀ p ∈ [Piece.escape '\n' [], .plain d], Stands p := by
        refine List.forall_mem_cons.2 ⟨.single (by decide), List.forall_mem_singleton.2 (.plain ?_)⟩
        rintro (rfl | rfl | rfl) <;> cases hd
      rcases (by simpa [isLineSeparator] using hd : d = '\u2028' ∨ d = '\u2029') with rfl | rfl
      · exact ⟨rfl, by decide, hstands, .cons (.inl rfl) .nil, by decide, by simp, by simp⟩
      · exact ⟨rfl, by decide, hstands, .cons (.inl rfl) .nil, by decide, by simp, by simp⟩
  · refine ⟨[.escape '?' [], .plain '\n'], [.escape '?' [], .plain '\n'], rfl, by decide, ?_, ?_, by decide, by simp,
      by simp⟩
    · simp [Stands.single, Stands.plain]
    · exact List.forall₂_same.2 fun p _ => .inl rfl

theorem parts_of_readsAt {u : Token} {r : Text} (h : ReadsAt u r) : ∃ ps qs, Parts u.text (written u) r ps qs := by
  rcases h with ⟨hkind, hreads⟩ | ⟨hkind, hreads⟩
  · have hwritten : written u = replaceLineEnds ['\\', 'n'] u.text := by simp [written, tokenText, hkind]
    rw [hwritten]
    exact ⟨_, _, parts_of_fragment hreads⟩
  · have hwritten : written u = withoutContinuations u.text := by simp [written, tokenText, hkind]
    rw [hwritten]
    exact parts_of_escape hreads

/-! ### Raw strings of tokens -/

/-- The token holds no line end, but for a line feed that the escape of a question mark takes along. -/
def IsInline (u : Token) : Prop := (∃ c ∈ u.text, isBreak c = true) → u.text = ['\\', '?', '\n']

/-- A token is written as it is in the raw string, or a line feed of the raw string is written otherwise. -/
theorem written_cases {u : Token} {r : Text} (h : ReadsAt u r) :
    IsInline u ∧ written u = raw u.text ∨ ¬ IsInline u ∧ '\n' ∉ written u ∧ '\n' ∈ raw u.text := by
  have hnone {w : Text} (hw : ¬ ∃ c ∈ w, isBreak c = true) : ∀ c ∈ w, isBreak c = false :=
    fun c hc => by simpa using fun hbreak => hw ⟨c, hc, hbreak⟩
  rcases h with ⟨hkind, hreads⟩ | ⟨hkind, hreads⟩
  · have hwritten : written u = replaceLineEnds ['\\', 'n'] u.text := by simp [written, tokenText, hkind]
    by_cases hbreak : ∃ c ∈ u.text, isBreak c = true
    · refine .inr ⟨fun hinline => ?_, fun hmem => ?_, mem_raw_iff.2 hbreak⟩
      · refine (fragment_of_reads hreads).1 '\\' ?_ (.inl rfl)
        rw [hinline hbreak]
        simp
      · rw [hwritten] at hmem
        cases notMem_replaceLineEnds (by simp) (by simp) _ _ hmem
    · refine .inl ⟨fun h => (hbreak h).elim, ?_⟩
      have hkept : ∀ c ∈ raw u.text, (if c = '\n' then ['\\', 'n'] else [c]) = [c] := by
        intro c hc
        refine if_neg ?_
        rintro rfl
        exact hbreak (mem_raw_iff.1 hc)
      rw [hwritten, replaceLineEnds_eq (by simp [isBreak]), List.flatMap_congr hkept, List.flatMap_singleton']
  · have hwritten : written u = withoutContinuations u.text := by simp [written, tokenText, hkind]
    by_cases hbreak : ∃ c ∈ u.text, isBreak c = true
    · by_cases hquestion : u.text = ['\\', '?', '\n']
      · exact .inl ⟨fun _ => hquestion, by rw [hwritten, hquestion]; decide⟩
      · refine .inr ⟨fun hinline => hquestion (hinline hbreak), fun hmem => hquestion ?_, mem_raw_iff.2 hbreak⟩
        rw [hwritten] at hmem
        exact (break_escape_iff hreads).1 ⟨_, hmem, rfl⟩
    · refine .inl ⟨fun h => (hbreak h).elim, ?_⟩
      rw [hwritten, withoutContinuations_of_forall (hnone hbreak), raw_of_notMem (notMem_of_forall (hnone hbreak)).2]

/-- Rows of texts of which each has fewer line feeds or is the same are the same only where each is. -/
theorem flatMap_eq_iff {us : List Token} {f g : Token → Text}
    (h : ∀ u ∈ us, f u = g u ∨ (f u).count '\n' < (g u).count '\n') :
    us.flatMap f = us.flatMap g ↔ ∀ u ∈ us, f u = g u := by
  have hcount : (us.flatMap f).count '\n' ≤ (us.flatMap g).count '\n' ∧
      ((us.flatMap f).count '\n' = (us.flatMap g).count '\n' → ∀ u ∈ us, f u = g u) := by
    induction us with
    | nil => simp
    | cons u us ih =>
      obtain ⟨hu, hus⟩ := List.forall_mem_cons.1 h
      obtain ⟨hle, heq⟩ := ih hus
      rw [List.flatMap_cons, List.flatMap_cons, List.count_append, List.count_append]
      rcases hu with hu | hlt
      · rw [hu]
        exact ⟨by omega, fun hsum => List.forall_mem_cons.2 ⟨hu, heq (by omega)⟩⟩
      · exact ⟨by omega, fun hsum => by omega⟩
  exact ⟨fun he => hcount.2 (by rw [he]), List.flatMap_congr⟩

/-! ### Tokens one behind another -/

/-- Fragments and escapes that are read one behind another, in front of a text. -/
def Run : List Token → Text → Prop
  | [], _ => True
  | u :: us, r => ReadsAt u (us.flatMap (·.text) ++ r) ∧ Run us r

theorem Run.parts {us : List Token} {r : Text} (h : Run us r) :
    ∃ ps qs, Parts (us.flatMap (·.text)) (us.flatMap written) r ps qs := by
  induction us with
  | nil => exact ⟨[], [], rfl, rfl, by simp, .nil, .nil, by simp, by simp⟩
  | cons u us ih =>
    obtain ⟨hu, hus⟩ := h
    obtain ⟨ps, qs, hparts⟩ := parts_of_readsAt hu
    obtain ⟨ps', qs', hparts'⟩ := ih hus
    exact ⟨ps ++ ps', qs ++ qs', hparts.append hparts'⟩

theorem Run.readsAt {us : List Token} {r : Text} (h : Run us r) : ∀ u ∈ us, ∃ r, ReadsAt u r := by
  induction us with
  | nil => simp
  | cons u us ih => exact List.forall_mem_cons.2 ⟨⟨_, h.1⟩, ih h.2⟩

theorem Run.raw_eq {us : List Token} {r : Text} (h : Run us r) :
    raw (us.flatMap (·.text)) = us.flatMap fun u => raw u.text := by
  induction us with
  | nil => rfl
  | cons u us ih =>
    obtain ⟨hu, hus⟩ := h
    obtain ⟨ps, qs, hparts⟩ := parts_of_readsAt hu
    rw [List.flatMap_cons, List.flatMap_cons, raw_append, ih hus]
    rintro ⟨hlast, hhead⟩
    exact hparts.whole ⟨hlast, by rw [List.head?_append, hhead]; rfl⟩

/-- What becomes of tokens between two substitutions that are read as the parts `ps`. -/
structure Outcome (us : List Token) (ps : List Piece) : Prop where
  source : pieces? (us.flatMap (·.text)) = some ps
  /-- No substitution opens in what is written, unless two parts open one that an escaped line end kept apart. -/
  closed : (pieces? (us.flatMap written)).isSome ↔ Closed (StringLiteral.kept ps)
  /-- The cooked string is kept, unless a zero comes to stand before a digit. -/
  cooked : ∀ qs, pieces? (us.flatMap written) = some qs →
    (cooked qs = cooked ps ↔ cooked ps = none ∨ Apart (StringLiteral.kept ps))
  /-- The raw string is kept where there are no line ends. -/
  raw : raw (us.flatMap written) = raw (us.flatMap (·.text)) ↔ ∀ u ∈ us, IsInline u

theorem Run.outcome {us : List Token} {r : Text} (h : Run us r) : ∃ ps, Outcome us ps := by
  obtain ⟨ps, qs, hparts⟩ := h.parts
  have hstands : ∀ q ∈ qs, Stands q :=
    stands_written hparts.written fun p hp => hparts.stands p (List.mem_of_mem_filter hp)
  have hraw : raw (us.flatMap written) = qs.flatMap Piece.text := by
    rw [hparts.line, raw_texts hstands]
  have hline := pieces?_of_raw hstands hraw
  simp only [closed_written hparts.written] at hline
  refine ⟨ps, ?_, ?_, ?_, ?_⟩
  · rw [pieces?_of_raw hparts.stands hparts.source, if_pos hparts.closed]
  · rw [hline]
    split <;> simp_all
  · intro qs' hqs'
    rw [hline] at hqs'
    split at hqs'
    · cases hqs'
      rw [cooked_written hparts.written]
      exact cooked_kept_iff ps
    · cases hqs'
  · have hcases : ∀ u ∈ us, IsInline u ∧ written u = raw u.text ∨
        ¬ IsInline u ∧ '\n' ∉ written u ∧ '\n' ∈ raw u.text := by
      intro u hu
      obtain ⟨r, hreads⟩ := h.readsAt u hu
      exact written_cases hreads
    rw [hraw, ← hparts.line, h.raw_eq, flatMap_eq_iff]
    · refine forall₂_congr fun u hu => ?_
      rcases hcases u hu with ⟨hinline, he⟩ | ⟨hinline, hnot, hmem⟩
      · exact iff_of_true he hinline
      · exact iff_of_false (fun he => hnot (he ▸ hmem)) hinline
    · intro u hu
      rcases hcases u hu with ⟨-, he⟩ | ⟨-, hnot, hmem⟩
      · exact .inl he
      · refine .inr ?_
        rw [List.count_eq_zero.2 hnot]
        exact List.count_pos_iff.2 hmem

/-! ### Templates -/

open Tree

/-- The tokens between the substitutions of a row. -/
def runs : List Tree → List (List Token)
  | [] => [[]]
  | .leaf u :: ts => (runs ts).modifyHead (u :: ·)
  | .node _ _ :: ts => [] :: runs ts

/-- The pieces of a template, without the backticks. -/
def inner (ts : List Tree) : List Tree := ts.tail.dropLast

end TemplateLiteral

end ServerSplit.Js
