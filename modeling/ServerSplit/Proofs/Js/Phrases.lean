import ServerSplit.Json.Quoted
import ServerSplit.Proofs.Js.Comes
import ServerSplit.Proofs.Js.Marked

/-! Expressions read piece by piece -/
namespace ServerSplit.Js.Grammar

open Rule Reader

variable {start : Nat → List Tree → List (List Tree) → Reader} {b t u : Text} {c : Char} {x : Ctx}

/-! ### Ends -/

section Ends

variable (hc : isCloser c = true) (hx : x.inHead = false) (hcall : x.noCall = false)
include hc hx hcall

theorem continuation_misses {level : Nat} : Misses (part (.continuation x level)) (fresh (c :: u)) :=
  fun _ _ _ => Comes.part ⟨0, yields_none fun _ _ => continuation_stuck hc hx hcall rfl rfl rfl⟩

/-- An operand in front of a closer is an expression. -/
theorem expression_goes (h : Goes (part (.operand x)) start (c :: u)) : Goes (expression x) start (c :: u) :=
  .part (.seq h (.many_stop (continuation_misses hc hx hcall)))

end Ends

/-! ### Strings -/

section Strings

variable {q : Char} {first : Token} {us : List (List Tree)} {s : Reader}

theorem stringPart_escape {w r : Text} (hs : s.InLiteral first us t) (hfragment : Lexeme.stringFragment q t = none)
    (hescape : Lexeme.escapeSequence t = some (w, r)) :
    ∃ s', Comes (stringPart q) s (some s') ∧ s'.InLiteral first us r := by
  refine ⟨{ s.push .escapeSequence w r with closed := false }, ?_, ?_⟩
  · refine .right (.step ?_) (.left (.step ?_))
    · simp [Step.run, take, hs.blank, hs.rest, hfragment]
    · simp [Step.run, take, hs.blank, hs.rest, hescape]
  · exact { InLiteral.push (s := { s with closed := false }) .escapeSequence w r hs.items hs.outer rfl with }

theorem stringPart_reads : (stringPart q).ReadsHeads := by
  simp [stringPart, Step.ReadsHead, Lexeme.takes_stringFragment, Lexeme.takes_escapeSequence]

theorem blank_of_inLiteral (hs : s.InLiteral first us t) : s.Blank := by
  intro c hc
  rw [hs.blank] at hc
  cases hc

/-- A character that a string of JSON holds as it is. -/
def isBare (c : Char) : Bool := (Json.shortEscape? c).isNone && 0x20 ≤ c.toNat

theorem escaped_of_isBare (h : isBare c = true) : Json.escaped c = [c] := by
  simp only [isBare, Bool.and_eq_true, Option.isNone_iff_eq_none, decide_eq_true_eq] at h
  simp [Json.escaped, h.1, Nat.not_lt.2 h.2]

theorem flatMap_escaped {t : Text} (h : ∀ c ∈ t, isBare c = true) : t.flatMap Json.escaped = t := by
  induction t with
  | nil => rfl
  | cons c t ih =>
    obtain ⟨hc, ht⟩ := List.forall_mem_cons.1 h
    rw [List.flatMap_cons, escaped_of_isBare hc, ih ht]
    rfl

theorem isFragment_of_isBare (h : isBare c = true) : isFragment '"' c = true := by
  simp only [isBare, Bool.and_eq_true, Option.isNone_iff_eq_none, decide_eq_true_eq] at h
  obtain ⟨hshort, hlow⟩ := h
  simp only [isFragment, isNul, Bool.and_eq_true, bne_iff_ne, Bool.not_eq_true', decide_eq_false_iff_not]
  refine ⟨⟨⟨⟨?_, ?_⟩, ?_⟩, ?_⟩, ?_⟩ <;> rintro rfl
  · cases hshort
  · cases hshort
  · cases hshort
  · cases hshort
  · exact absurd hlow (by decide)

theorem count_append {p : Char → Bool} {w : Text} (hw : w.all p = true) (r : Text) :
    Lexeme.count w.length p (w ++ r) = some (w, r) := by
  simp [Lexeme.count, hw]

theorem run_append {p : Char → Bool} {w r : Text} (hne : w ≠ []) (hw : ∀ c ∈ w, p c = true)
    (hr : r.head?.any p = false) : Lexeme.run p (w ++ r) = some (w, r) := by
  have hcut : r.takeWhile p = [] ∧ r.dropWhile p = r := by
    cases r with
    | nil => exact ⟨rfl, rfl⟩
    | cons c r =>
      have hc : ¬ p c = true := by simpa using hr
      exact ⟨List.takeWhile_cons_of_neg hc, List.dropWhile_cons_of_neg hc⟩
  rw [Lexeme.run, List.takeWhile_append_of_pos hw, List.dropWhile_append_of_pos hw, hcut.1, hcut.2, List.append_nil]
  cases w with
  | nil => exact (hne rfl).elim
  | cons c w => rfl

theorem escapeSequence_escaped (h : isBare c = false) (r : Text) :
    ∃ w, Json.escaped c = '\\' :: w ∧ Lexeme.escapeSequence (Json.escaped c ++ r) = some ('\\' :: w, r) := by
  unfold Json.escaped
  split
  · rename_i e he
    refine ⟨[e], rfl, ?_⟩
    unfold Json.shortEscape? at he
    split_ifs at he <;> cases he <;> rfl
  · rename_i hnone
    have hlow : c.toNat < 0x20 := by
      rw [isBare, hnone] at h
      simpa using h
    have hhex : ∀ n < 0x20, (Text.hex 4 n).length = 4 ∧ (Text.hex 4 n).all Lexeme.isHexDigit = true := by decide
    obtain ⟨hlength, hall⟩ := hhex _ hlow
    rw [if_pos hlow]
    refine ⟨'u' :: Text.hex 4 c.toNat, rfl, ?_⟩
    have hcount : Lexeme.count 4 Lexeme.isHexDigit (Text.hex 4 c.toNat ++ r) = some (Text.hex 4 c.toNat, r) :=
      hlength ▸ count_append hall r
    have hcode : Lexeme.unicodeEscape ('u' :: (Text.hex 4 c.toNat ++ r)) = some ('u' :: Text.hex 4 c.toNat, r) := by
      have hmark : Lexeme.exactly ['u'] ('u' :: (Text.hex 4 c.toNat ++ r)) =
          some (['u'], Text.hex 4 c.toNat ++ r) := rfl
      simp [Lexeme.unicodeEscape, Lexeme.andThen, hmark, hcount]
    change (Lexeme.unicodeEscape ('u' :: (Text.hex 4 c.toNat ++ r))).map _ = _
    rw [hcode]
    rfl

theorem stringParts_comes (d : Text) (hs : s.InLiteral first us (d.flatMap Json.escaped ++ '"' :: u)) :
    ∃ s', Comes (many (stringPart '"')) s (some s') ∧ s'.InLiteral first us ('"' :: u) := by
  have next {s t : Reader} {o : Option Reader} (hs : s.Blank) := Comes.many_next (o := o) (s := s) (t := t)
    (stringPart_reads (q := '"')) rfl rfl hs
  induction hn : d.length using Nat.strongRecOn generalizing d s with
  | ind n ih =>
    subst hn
    cases d with
    | nil =>
      refine ⟨s, .many_stop ⟨6, ?_⟩, hs⟩
      have := stringPart_comment hs (fun c hc => .inl (Option.some.inj hc).symm) (by decide)
      rw [comment_inLiteral, hs.rest] at this
      exact this
    | cons c d =>
      cases hbare : isBare c with
      | false =>
        obtain ⟨w, hw, hescape⟩ := escapeSequence_escaped hbare (d.flatMap Json.escaped ++ '"' :: u)
        rw [List.flatMap_cons, List.append_assoc] at hs
        have hfragment : Lexeme.stringFragment '"' (Json.escaped c ++ (d.flatMap Json.escaped ++ '"' :: u)) =
            none := by
          rw [hw]
          rfl
        obtain ⟨s₁, hpart, hs₁⟩ := stringPart_escape hs hfragment hescape
        obtain ⟨s', hmany, hs'⟩ := ih d.length (by simp) d hs₁ rfl
        exact ⟨s', next (blank_of_inLiteral hs) hpart hmany, hs'⟩
      | true =>
        obtain ⟨f, v, hf, hv⟩ : ∃ f v, (c :: d).takeWhile isBare = f ∧ (c :: d).dropWhile isBare = v :=
          ⟨_, _, rfl, rfl⟩
        have hsplit : c :: d = f ++ v := by rw [← hf, ← hv, List.takeWhile_append_dropWhile]
        have hall : ∀ e ∈ f, isBare e = true := hf ▸ fun e => List.mem_takeWhile_imp
        have hne : f ≠ [] := by
          rw [← hf, List.takeWhile_cons_of_pos hbare]
          exact List.cons_ne_nil _ _
        have hend : (v.flatMap Json.escaped ++ '"' :: u).head?.any (isFragment '"') = false := by
          cases v with
          | nil => rfl
          | cons e v =>
            have he : isBare e = false := by
              have := List.head?_dropWhile_not isBare (c :: d)
              rw [hv] at this
              simpa using this
            obtain ⟨w, hw, -⟩ := escapeSequence_escaped he []
            rw [List.flatMap_cons, hw]
            rfl
        rw [hsplit, List.flatMap_append, flatMap_escaped hall, List.append_assoc] at hs
        obtain ⟨s₁, hpart, hs₁, -⟩ := stringPart_fragment hs
          (run_append hne (fun e he => isFragment_of_isBare (hall e he)) hend)
        have hlength : v.length < (c :: d).length := by
          have := List.length_pos_iff.2 hne
          rw [hsplit, List.length_append]
          omega
        obtain ⟨s', hmany, hs'⟩ := ih v.length hlength v hs₁ rfl
        exact ⟨s', next (blank_of_inLiteral hs) ⟨6, hpart⟩ hmany, hs'⟩

theorem quoted_makes (d u : Text) : Makes .string (quoted '"') (ready b (Json.quoted d ++ u)) u := by
  intro n ts us
  have htext : Json.quoted d ++ u = '"' :: (d.flatMap Json.escaped ++ '"' :: u) := by simp [Json.quoted]
  rw [htext]
  let quote : Token := ⟨.mark, b, ['"'], n⟩
  let s : Reader := fresh (d.flatMap Json.escaped ++ '"' :: u) (n + Text.size ['"']) [.leaf quote] (ts :: us)
  have hs : s.InLiteral quote (ts :: us) (d.flatMap Json.escaped ++ '"' :: u) :=
    ⟨rfl, rfl, rfl, rfl, ⟨[], rfl⟩, rfl⟩
  obtain ⟨⟨rest, m, blank, settled, closed, items, outer⟩, hparts, hs'⟩ := stringParts_comes d hs
  obtain ⟨rfl, rfl, rfl, rfl, ⟨new, rfl⟩, rfl⟩ := hs'
  refine ⟨m + Text.size ['"'], (.leaf ⟨.mark, [], ['"'], m⟩ :: (new.map Tree.leaf ++ [.leaf quote])).reverse,
    .node (ready_ready.settle {}) (.seq (.seq (.seq (.step rfl) hparts) (.step rfl)) (.step rfl)) rfl, ?_⟩
  intro f hf
  obtain ⟨v, rfl⟩ : ∃ v, f = .leaf v := by
    simp only [List.mem_reverse, List.mem_cons, List.mem_append, List.mem_map, List.mem_nil_iff, or_false] at hf
    rcases hf with rfl | ⟨v, -, rfl⟩ | rfl
    · exact ⟨_, rfl⟩
    · exact ⟨v, rfl⟩
    · exact ⟨_, rfl⟩
  exact Tree.decided_leaf v

/-- A string of JSON is read as an operand. -/
theorem string_goes (d u : Text) : Goes (part (.operand x)) (ready b (Json.quoted d ++ u)) u := by
  have hstring : Goes string (ready b (Json.quoted d ++ u)) u := .left ((quoted_makes d u).goes rfl)
  intro n ts us
  obtain ⟨m, new, ⟨k, h⟩, hnew⟩ := hstring n ts us
  exact ⟨m, new, ⟨_, .part (operand_yields (bare_quote (.inl rfl) _) ready_ready h)⟩, hnew⟩

end Strings

/-! ### Brackets -/

/-- What may stand between the commas of a list in brackets. -/
def item : R := spread <|> expression {}

theorem item_reads : item.ReadsHeads := by
  simp [item, spread, Grammar.expression, Grammar.part]

theorem passesGap_operand : PassesGap (part (.operand x)) := passesGap_gap.seq.part

theorem item_goes (hb : ∀ e ∈ b, isGap e = true) (ht : t.head?.any isCodeStart = true)
    (hdot : (t.head? == some '.') = false) (hc : isCloser c = true) (h : Goes (part (.operand {})) (ready b t) (c :: u)) :
    Goes item (fresh (b ++ t)) (c :: u) := by
  have hspread : Stuck b t spread :=
    .node (Stuck.seq (stuck_read (eq_none_of_never (Lexeme.takes_exactly (by simp)) fun d hd =>
      Lexeme.never_exactly (by simp) fun h => beq_eq_false_iff_ne.1 hdot (hd.trans h.symm))))
  exact .right (hspread.misses.behind passesGap_node hb ht)
    (expression_goes hc rfl rfl (h.behind passesGap_operand hb ht))

section Row

variable {v : Text}

theorem row_stop (hb : ∀ e ∈ b, isGap e = true) (hc : isCloser c = true) (hcomma : c ≠ ',') :
    Goes (many (comma ++ opt item)) (fresh (b ++ c :: t)) (b ++ c :: t) := by
  have hstuck : Stuck b (c :: t) (comma ++ opt item) := .seq (stuck_mark (by simpa using hcomma.symm))
  exact .many_stop (hstuck.misses.behind passesGap_read.seq hb (closer_code hc))

theorem row_next (hitem : Goes (opt item) (fresh t) u) (h : Goes (many (comma ++ opt item)) (fresh u) v) :
    Goes (many (comma ++ opt item)) (fresh (',' :: t)) v := by
  have hcomma : Goes comma (fresh ([] ++ ',' :: t)) t := (goes_read rfl).behind passesGap_read nofun rfl
  exact .many_next (by simpa [comma] using item_reads) rfl rfl (hcomma.seq hitem) h

end Row

/-- A list between brackets. -/
theorem array_goes {r : Text} (hb : ∀ e ∈ b, isGap e = true)
    (h : Goes (separated comma item) (fresh t) (b ++ ']' :: u)) : Goes (part (.operand x)) (ready r ('[' :: t)) u := by
  have hopen : Goes (mark "[") (ready r ('[' :: t)) t := goes_read rfl
  have hclose : Goes (mark "]") (fresh (b ++ ']' :: u)) u := (goes_read rfl).behind passesGap_read hb rfl
  have harray : Goes array (ready r ('[' :: t)) u := (Goes.node ((hopen.seq h).seq hclose)).goes rfl
  refine .part (.gap ?_)
  iterate 6 refine .right (fun _ _ _ => ⟨40, fun _ => rfl⟩) ?_
  exact .left (.part harray)

/-- One argument between parentheses. -/
theorem argument_goes (h : Goes item (fresh t) (')' :: u)) : Goes (part .arguments) (ready b ('(' :: t)) u := by
  have hopen : Goes (mark "(") (ready b ('(' :: t)) t := goes_read rfl
  have hclose : Goes (mark ")") (fresh ([] ++ ')' :: u)) u := (goes_read rfl).behind passesGap_read nofun rfl
  have hlist : Goes (separated comma item) (fresh t) (')' :: u) :=
    .seq h.left (row_stop (b := []) nofun rfl (by decide))
  exact .part ((Goes.node ((hopen.seq hlist).seq hclose)).goes rfl)

/-- What is made has a name, and one argument in parentheses. -/
theorem new_goes {d : Char} {w : Text} (hd : isCodeStart d = true) (hdot : d ≠ '.')
    (hname : ∀ r, Lexeme.nameExcept ("async" :: reservedWords) (d :: (w ++ '(' :: r)) = some (d :: w, '(' :: r))
    (h : Goes item (fresh t) (')' :: u)) :
    Goes (part (.operand .ending)) (ready b ("new ".toList ++ (d :: (w ++ '(' :: t)))) u := by
  intro n ts us
  have hblank : ∀ e ∈ [' '], isGap e = true := List.all_eq_true.1 rfl
  have hhead : (d :: (w ++ '(' :: t)).head?.any isCodeStart = true := hd
  let v : Reader := fresh (' ' :: d :: (w ++ '(' :: t)) (n + 3) [.leaf ⟨.mark, b, "new".toList, n⟩] (ts :: us)
  let made : Reader := fresh ('(' :: t) (n + 3 + 1 + Text.size (d :: w))
    [.leaf ⟨.name, [' '], d :: w, n + 3 + 1⟩, .leaf ⟨.mark, b, "new".toList, n⟩] (ts :: us)
  have hword : Comes (keyword "new") (ready b ("new ".toList ++ (d :: (w ++ '(' :: t))) n [] (ts :: us)) (some v) :=
    .step rfl
  have hmeta : Comes (mark ".") v none := by
    have hstuck : Stuck [' '] (d :: (w ++ '(' :: t)) (mark "." : R) := stuck_mark (by simpa using hdot.symm)
    exact hstuck.misses.behind passesGap_read hblank hhead (n + 3) _ _
  have htarget : Comes (part (.expression ⟨true, false, true⟩ constructorLevel)) v (some made) := by
    have hoperand : Comes (operand ⟨true, false, true⟩) v (some made) := by
      refine .behind passesGap_gap.seq (settle_fresh (b := [' ']) hblank hhead) (.seq (.step rfl) (.left ?_))
      exact .seq (.step (ready_ready.token _ (hname t))) ⟨20, fun _ => rfl⟩
    exact .part (.seq (.part hoperand) (.many_stop ⟨60, fun _ => rfl⟩))
  obtain ⟨m, new, harguments, hnew⟩ := argument_goes (b := []) h made.offset made.items made.outer
  refine ⟨m, [.node .newExpression (new ++ made.items).reverse], .part (.seq (.step rfl) ?_), ?_⟩
  · iterate 12 refine .right ⟨40, fun _ => rfl⟩ ?_
    refine .left (.seq (.present (.step rfl)) (.right (.node_none (ready_ready.settle {}) ?_) ?_))
    · exact .seq_none (.seq hword hmeta)
    · have hcall : Comes (gap ⟨true, true⟩ ++ part .arguments) made _ := .seq (.step rfl) harguments
      exact .node (ready_ready.settle {}) (.seq (.seq (.seq hword htarget) (.step rfl)) (.opt_some hcall)) rfl
  · have hitems := List.forall_mem_append.2 ⟨hnew, (Tree.collectOf_eq_nil.1 rfl : ∀ f ∈ made.items, f.Decided)⟩
    exact List.forall_mem_singleton.2 (Tree.decided_reverse rfl hitems)

/-! ### Templates -/

/-- A character of a template that neither ends its text nor starts anything in it. -/
def isTemplateText (c : Char) : Bool := c != '$' && c != '\x60' && c != '\\' && !isNul c

theorem templateText_append {w : Text} (hne : w ≠ []) (hw : ∀ c ∈ w, isTemplateText c = true) (r : Text) :
    Lexeme.templateText (w ++ '$' :: '\x7b' :: r) = some (w, '$' :: '\x7b' :: r) := by
  have hgo {w : Text} (hw : ∀ c ∈ w, isTemplateText c = true) :
      Lexeme.templateText.go (w ++ '$' :: '\x7b' :: r) = some (w, '$' :: '\x7b' :: r) := by
    induction w with
    | nil => rfl
    | cons c w ih =>
      obtain ⟨hc, hw⟩ := List.forall_mem_cons.1 hw
      simp only [isTemplateText, Bool.and_eq_true, bne_iff_ne, Bool.not_eq_true'] at hc
      obtain ⟨⟨⟨hdollar, htick⟩, hslash⟩, hnul⟩ := hc
      rw [List.cons_append, Lexeme.templateText.go, ih hw]
      · simp [htick, hslash, hnul]
      · exact fun _ hc => absurd hc hdollar
  simp [Lexeme.templateText, hgo hw, hne]

/-- What may stand between the marks of a template. -/
def templatePart : R :=
  anyOf [
    glued .stringFragment Lexeme.templateText,
    glued .escapeSequence Lexeme.escapeSequence,
    present (glued .mark (Lexeme.exactly ['$', '\x7b'])) ++
      node .templateSubstitution (mark "$\x7b" ++ enclosed ++ mark "\x7d")]

theorem templatePart_reads : templatePart.ReadsHeads := by
  simp [templatePart, enclosed, Grammar.part, Lexeme.takes_templateText, Lexeme.takes_escapeSequence,
    Lexeme.takes_exactly]

/-- A template of a text and a name. -/
theorem template_goes {w : Text} (hne : w ≠ []) (hw : ∀ c ∈ w, isTemplateText c = true) :
    Goes (part (.operand x)) (ready b ('\x60' :: (w ++ ("$\x7bidentifier\x7d".toList ++ '\x60' :: u)))) u := by
  let rest : Text := "$\x7bidentifier\x7d".toList ++ '\x60' :: u
  have hopen : Goes (mark "\x60") (ready b ('\x60' :: (w ++ rest))) (w ++ rest) := goes_read rfl
  have htext : Goes templatePart (fresh (w ++ rest)) rest := .left (goes_glued (templateText_append hne hw _))
  have hname : Goes templatePart (fresh rest) ('\x60' :: u) := by
    intro n ts us
    refine ⟨n + 13, [.node .templateSubstitution [.leaf ⟨.mark, [], "$\x7b".toList, n⟩,
      .leaf ⟨.name, [], "identifier".toList, n + 2⟩, .leaf ⟨.mark, [], "\x7d".toList, n + 12⟩]],
      .of_freely (k := 80) templatePart_reads rfl fresh_blank fun _ => rfl, Tree.collectOf_eq_nil.1 rfl⟩
  have hparts := Goes.many_next templatePart_reads rfl rfl htext
    (.many_next templatePart_reads rfl rfl hname (.many_stop fun _ _ _ => ⟨40, fun _ => rfl⟩))
  have hclose : Goes (glued .mark (Lexeme.exactly ['\x60'])) (fresh ('\x60' :: u)) u := goes_glued rfl
  have htemplate : Goes template (ready b ('\x60' :: (w ++ rest))) u :=
    (Goes.node ((hopen.seq hparts).seq hclose)).goes rfl
  refine .part (.gap ?_)
  iterate 7 refine .right (fun _ _ _ => ⟨40, fun _ => rfl⟩) ?_
  exact .left (.part htemplate)

/-! ### Assignments -/

/-- A token on its own. -/
def tok (k : Leaf) (s : String) (n : Nat) (b : String := "") : Tree := .leaf ⟨k, b.toList, s.toList, n⟩

/-- What may be assigned to, and stays as it is. -/
structure IsPlace (f : Tree) : Prop where
  comment : f.isComment = false
  filled : isFilledArray f = false
  assignable : isAssignable f = true
  recast : Recast.assigned.apply f = some f

theorem splitLast_one {f : Tree} (hf : f.isComment = false) (ts : List Tree) :
    splitLast 1 (f :: ts) = some ([f], ts) := by
  simp [splitLast, hf]

theorem adopt_one {s : Reader} {f : Tree} {ts : List Tree} (hs : s.items = f :: ts) (hf : f.isComment = false) :
    (Step.adopt 1).run s = some { s with items := [f], outer := ts :: s.outer } := by
  simp [Step.run, hs, splitLast_one hf]

/-- An assignment goes on with the value. -/
theorem assignment_comes {f g : Tree} (hf : IsPlace f) (hcall : x.noCall = false) {n m : Nat} {ts : List Tree}
    {us : List (List Tree)}
    (hvalue : Comes (expression x) (fresh (' ' :: t) (n + 2) [tok .mark "=" (n + 1) " ", f] (ts :: us))
      (some (fresh u m [g, tok .mark "=" (n + 1) " ", f] (ts :: us)))) :
    Comes (part (.continuation x 0)) (fresh (' ' :: '=' :: ' ' :: t) n (f :: ts) us)
      (some (fresh u m (.node .assignment [f, tok .mark "=" (n + 1) " ", g] :: ts) us)) := by
  let s : Reader := fresh (' ' :: '=' :: ' ' :: t) n (f :: ts) us
  let v : Reader := ready [' '] ('=' :: ' ' :: t) (n + 1) (f :: ts) us
  have hpattern : Comes (last isFilledArray ++ gap {} ++ present (operator "=")) s none :=
    .seq_none (.seq_none (.step (by simp [Step.run, s, fresh, Reader.last?, hf.comment, hf.filled])))
  have hgap : s.settle x.gap = some v := by
    obtain ⟨_ | _, _, _⟩ := x <;> rfl
  have haccess : Comes (behind constructorLevel (anyOf (access x))) v none :=
    ⟨0, Stuck.yields ((stays_last _).seq (stuck_anyOf (by simp [access]) (access_stuck rfl hcall))) ready_ready⟩
  have hlast {p : Tree → Bool} (hp : p f = true) : Comes (last p) v (some v) := by
    refine .step ?_
    simp [Step.run, v, ready, Reader.last?, hf.comment, hp]
  have hrecast : Comes (recast .assigned) v (some v) := by
    refine .step ?_
    simp [Step.run, v, ready, recastLast, hf.comment, hf.recast]
  have hwrap : Comes (wrap .assignment 1 (operator "=" ++ expression x)) v
      (some (fresh u m (.node .assignment [f, tok .mark "=" (n + 1) " ", g] :: ts) us)) :=
    .seq (.seq (.step (adopt_one rfl hf.comment)) (.seq (.step rfl) hvalue)) (.step rfl)
  refine .part (.right (.seq_none hpattern) (.seq (.seq (.absent hpattern) (.step hgap)) (.right haccess (.left ?_))))
  exact .seq (.present (.step rfl)) (.seq (.seq (hlast hf.assignable) hrecast) hwrap)

theorem isPlace_name (s : String) (n : Nat) (b : String) : IsPlace (tok .name s n b) := ⟨rfl, rfl, rfl, rfl⟩

end ServerSplit.Js.Grammar
