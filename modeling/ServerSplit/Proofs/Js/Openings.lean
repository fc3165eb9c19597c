import ServerSplit.Proofs.Js.Blocked

/-! With which characters operands and statements begin. Where the text goes on with a character that
begins neither punctuation nor a keyword, an operand is a name, and a statement is a label, an expression
or a return. -/
namespace ServerSplit.Js.Grammar

open Rule Lexeme

/-- The characters with which a token at the start of an operand or a statement may begin, digits,
names and the word `return` apart. -/
def openers : Text := "\"'`#@;,.([\x7b/<!~+-abcdefilnstuvwy".toList

/-- The character begins neither a gap nor a comment nor any token but a name, the word `return` or
what closes brackets. -/
structure Foreign (c : Char) : Prop where
  code : isCodeStart c = true
  digit : c.isDigit = false
  opener : openers.contains c = false

namespace Foreign

variable {c : Char} (hc : Foreign c)
include hc

theorem ne {d : Char} (hd : openers.contains d = true) : d ≠ c := by
  rintro rfl
  rw [hc.opener] at hd
  cases hd

theorem head_ne {s : Text} (hs : s.head?.any openers.contains = true) : s.head? ≠ some c := by
  intro h
  rw [h] at hs
  exact hc.ne hs rfl

theorem mark {s : String} (hs : s.toList.head?.any openers.contains = true) :
    Blocked c (mark s : R) := by
  refine blocked_read hc.code (never_exactly ?_ (hc.head_ne hs))
  intro hnil
  rw [hnil] at hs
  cases hs

theorem word {k : Leaf} {s : String} (hs : s.toList.head?.any openers.contains = true) :
    Blocked c (read k (Lexeme.word s) : R) :=
  blocked_read hc.code (never_word (hc.head_ne hs))

theorem keyword {s : String} (hs : s.toList.head?.any openers.contains = true) :
    Blocked c (keyword s : R) := hc.word hs

theorem operator {s : String} (hs : s.toList.head?.any openers.contains = true) :
    Blocked c (operator s : R) :=
  blocked_read hc.code (never_operator (hc.head_ne hs))

theorem quote {q : Char} (hq : openers.contains q = true) : Blocked c (read .mark (exactly [q]) : R) :=
  blocked_read hc.code (never_exactly (by simp) (by simpa using hc.ne hq))

end Foreign

theorem string_blocked {c : Char} (hc : Foreign c) : Blocked c string := by
  have quoted {q : Char} (hq : openers.contains q = true) (a b d : R) :
      Blocked c (node .string (read .mark (exactly [q]) ++ a ++ b ++ d)) :=
    .node hc.code (hc.quote hq).seq.seq.seq
  exact .orElse (quoted rfl _ _ _) (quoted rfl _ _ _)

/-- Where the text goes on with a foreign character, an operand is a name. -/
theorem operand_of_foreign {c : Char} (hc : Foreign c) {x : Ctx} {N : Nat} {s s' : Reader} (hs : s.At c)
    (h : Runs N (operand x) s s') :
    ∃ t, s.settle {} = some t ∧ Runs N (nameOperand x) t s' := by
  obtain ⟨t, hgap, hrun⟩ := h.seq
  have ht : t.At c := idle_gap hc.code {} N s t hs hgap
  refine ⟨t, hgap.step, hrun.anyOf_head ?_ ht⟩
  simp only [List.forall_mem_cons]
  have hnode {k : Kind} {a b : R} (ha : Blocked c a) : Blocked c (node k (a ++ b)) :=
    .node hc.code ha.seq
  refine ⟨?_, ?_, ?_, ?_, ?_, ?_, ?_, ?_, ?_, ?_, ?_, ?_, ?_, ?_, ?_, ?_, ?_, ?_, ?_, by simp⟩
  · refine blocked_anyOf (by simp) (List.forall_mem_map.2 fun w hw => hc.word ?_)
    fin_cases hw <;> rfl
  · exact (string_blocked hc).part
  · exact blocked_read hc.code (never_number hc.digit (hc.ne rfl).symm)
  · exact Blocked.seq (.node hc.code (hc.mark rfl).seq.seq)
  · exact .part (.node hc.code (hc.mark rfl).seq.seq)
  · exact .part (.node hc.code (hc.mark rfl).seq.seq)
  · exact .part (.node hc.code (hc.mark rfl).seq.seq)
  · exact .node hc.code (hc.mark rfl).seq.seq.seq.seq.seq
  · exact .present (hc.keyword rfl)
  · exact .present (hc.keyword rfl)
  · exact .present (.orElse (hc.keyword rfl) (hc.mark rfl))
  · exact .present (hc.keyword rfl)
  · exact .present (hc.keyword rfl)
  · refine hnode (blocked_anyOf (by simp [unaryOperators]) ?_)
    refine List.forall_mem_append.2 ⟨List.forall_mem_map.2 fun w hw => hc.operator ?_,
      List.forall_mem_map.2 fun w hw => hc.keyword ?_⟩
    · fin_cases hw <;> rfl
    · fin_cases hw <;> rfl
  · exact hnode (.orElse (hc.operator rfl) (hc.operator rfl))
  · exact hnode (hc.keyword rfl)
  · exact hnode (hc.keyword rfl)
  · exact .present (hc.mark rfl)
  · exact Blocked.seq (blocked_read hc.code (never_privateName (hc.ne rfl).symm))

theorem startsFunction_blocked {c : Char} (hc : Foreign c) (g : Gap) : Blocked c (startsFunction g) :=
  .orElse (hc.keyword rfl) (hc.keyword rfl).seq.seq

theorem startsVariables_blocked {c : Char} (hc : Foreign c) (g : Gap) (words : List String) :
    Blocked c (startsVariables g words) := by
  refine blocked_anyOf (by simp) ?_
  simp only [List.forall_mem_cons]
  exact ⟨hc.keyword rfl, hc.keyword rfl, (hc.keyword rfl).seq.seq, by simp⟩

/-- The alternatives of a statement behind those that start with a brace or a keyword. -/
private theorem statement_others {c : Char} (hc : Foreign c) {N : Nat} {t s' : Reader} (ht : t.At c)
    {r : R} (hr : r ∈ [present startsVariablesNotValue ++ declaredVariables,
       present (startsFunction ⟨true, true⟩) ++
        declarationOr (part (.functionForm .statement)) statementTail,
       exportStatement,
       present (keyword "class" <|> mark "@") ++
         declarationOr (part (.classForm .statement)) statementTail,
       present (keyword "import") ++ absent importExpression ++ importStatement]) :
    ¬ Runs N r t s' := by
  revert r
  simp only [List.forall_mem_cons]
  refine ⟨?_, ?_, ?_, ?_, ?_, by simp⟩
  · exact Blocked.present (startsVariables_blocked hc _ _) N t s' ht
  · exact Blocked.present (startsFunction_blocked hc _) N t s' ht
  · refine blocked_anyOf (by simp) ?_ N t s' ht
    simp only [List.forall_mem_cons]
    exact ⟨.node hc.code (hc.keyword rfl).seq.seq, .present (hc.mark rfl), by simp⟩
  · exact Blocked.present (.orElse (hc.keyword rfl) (hc.mark rfl)) N t s' ht
  · exact Blocked.seq (.present (hc.keyword rfl)) N t s' ht

/-- Where the text goes on with a foreign character, a statement is a return, a label or an expression. -/
theorem statement_of_foreign {c : Char} (hc : Foreign c) {b u : Text} (hb : ∀ d ∈ b, isGap d = true)
    {N : Nat} {s s' : Reader} (hsettled : s.settled = false) (hrest : s.rest = b ++ c :: u)
    (h : Runs N (statement false) s s') :
    ∃ t : Reader, t.At c ∧ t.items = s.items ∧ t.outer = s.outer ∧ (Runs N returnStatement t s' ∨
      Runs N (labeledStatement false) t s' ∨ Runs N expressionStatement t s') := by
  obtain ⟨t, hgap, hrun⟩ := h.seq
  have hsettle := Reader.settle_blanks hc.code hb (.inl hsettled) hrest hgap.step
  have ht : t.At c := by
    rw [Reader.At, hsettle.rest]
    rfl
  refine ⟨t, ht, hsettle.items, hsettle.outer, ?_⟩
  obtain ⟨r, hr, hrun⟩ := hrun.anyOf (by simp)
  rcases List.mem_append.1 hr with hr | hr
  · rcases List.mem_append.1 hr with hr | hr
    · have hblocked : ∀ r ∈ [empties, present (mark "\x7b") ++ bracesStatement], Blocked c r := by
        simp only [List.forall_mem_cons]
        exact ⟨.node hc.code (hc.mark rfl), .present (hc.mark rfl), by simp⟩
      exact absurd hrun (hblocked r hr N t s' ht)
    · obtain ⟨p, hp, rfl⟩ := List.mem_map.1 hr
      obtain ⟨v, hpresent, hbody⟩ := hrun.seq
      obtain ⟨rfl, w, hword⟩ := hpresent.present
      have hreturn : p = ("return", returnStatement) := by
        have hblocked (hs : p.1.toList.head?.any openers.contains = true) : False :=
          hc.keyword hs N v w ht hword
        fin_cases hp
        all_goals first | rfl | exact (hblocked rfl).elim
      subst hreturn
      exact .inl hbody
  · have hlast : r ∈ [_, _, _, _, _] ++ [_] := hr
    rcases List.mem_append.1 hlast with hr | hr
    · exact absurd hrun (statement_others hc ht hr)
    · rw [List.mem_singleton.1 hr] at hrun
      obtain ⟨v, habsent, hbody⟩ := hrun.seq
      obtain rfl := habsent.absent
      exact .inr hbody.orElse

/-- An operand where the text goes on with a foreign character begins with a name. -/
theorem operand_grows {c : Char} (hc : Foreign c) {x : Ctx} {N : Nat} {s s' : Reader} (hs : s.At c)
    (h : Runs N (operand x) s s') :
    ∃ tok : Token, tok.kind = .name ∧ Tree.tokensOf s.trees ++ [tok] <+: Tree.tokensOf s'.trees := by
  obtain ⟨t, hsettle, hrun⟩ := operand_of_foreign hc hs h
  obtain ⟨v, hname, htail⟩ := hrun.seq
  have ht := Reader.settle_at hc.code hs hsettle
  have hcode : t.At c := by rw [Reader.At, ht.rest]; exact hs
  obtain ⟨tok, htok⟩ := Reader.token_at hc.code hcode hname.step
  have htrees : v.trees = s.trees ++ [.leaf tok] := by
    simp [Reader.trees, htok.items, htok.outer, ht.items, ht.outer]
  have hgrows := htail.grows
  rw [htrees, Tree.tokensOf_append, Tree.tokensOf_singleton] at hgrows
  exact ⟨tok, htok.kind, hgrows⟩

/-- So does a statement that is an expression. -/
theorem expressionStatement_adds {c : Char} (hc : Foreign c) {N : Nat} {s s' : Reader} (hs : s.At c)
    (h : Runs N expressionStatement s s') :
    ∃ ts tok more, s'.items = .node .expressionStatement ts :: s.items ∧ s'.outer = s.outer ∧
      Tree.tokensOf ts = tok :: more ∧ tok.kind = .name := by
  have hadds : Adds (part (.expressions .ending) ++ semicolon true) 1 := ⟨rfl, rfl⟩
  obtain ⟨t, ts, hsettle, hitems, houter, u, hrun, hu⟩ := h.node_items hadds
  have ht := Reader.settle_at hc.code hs hsettle
  obtain ⟨v, hexpressions, hend⟩ := hrun.seq
  obtain ⟨M, -, hexpressions⟩ := hexpressions.part
  obtain ⟨w, hexpression, htail⟩ := hexpressions.seq
  obtain ⟨M, -, hexpression⟩ := hexpression.part
  obtain ⟨x, hoperand, hmany⟩ := hexpression.seq
  obtain ⟨M, -, hoperand⟩ := hoperand.part
  have hcode : t.opened.At c := by
    rw [Reader.At, Reader.opened_rest, ht.rest]
    exact hs
  obtain ⟨tok, hkind, hgrows⟩ := operand_grows hc hcode hoperand
  obtain ⟨more, hmore⟩ := hgrows.trans (hmany.grows.trans (htail.grows.trans hend.grows))
  obtain ⟨-, -, houter', -⟩ := hadds.items hrun
  refine ⟨ts, tok, more, by rw [hitems, ht.items], houter, ?_, hkind⟩
  simp only [Reader.trees, hu, houter', Reader.opened_items] at hmore
  simpa [Tree.tokensOf] using hmore.symm

/-- A statement where the text goes on with a foreign character is one node, and begins with a name if
it is an expression. -/
theorem statement_adds {c : Char} (hc : Foreign c) {b u : Text} (hb : ∀ d ∈ b, isGap d = true)
    {N : Nat} {s s' : Reader} (hsettled : s.settled = false) (hrest : s.rest = b ++ c :: u)
    (h : Runs N (statement false) s s') :
    ∃ k ts, s'.items = .node k ts :: s.items ∧ s'.outer = s.outer ∧
      (k = .expressionStatement → ∃ tok more, Tree.tokensOf ts = tok :: more ∧ tok.kind = .name) := by
  obtain ⟨t, ht, hitems, houter, hrun⟩ := statement_of_foreign hc hb hsettled hrest h
  have hsettle {t' : Reader} (ht' : t.settle {} = some t') : t'.items = s.items :=
    (Reader.settle_at hc.code ht ht').items.trans hitems
  rcases hrun with hrun | hrun | hrun
  · have hadds : Adds (keyword "return" ++ (semicolon false <|>
        (gap ⟨true, false⟩ ++ part (.expressions .ending) ++ semicolon true))) 1 := ⟨rfl, rfl⟩
    obtain ⟨t', ts, ht', hitems', houter', -⟩ := hrun.node_items hadds
    refine ⟨.returnStatement, ts, by rw [hitems', hsettle ht'], by rw [houter', houter], ?_⟩
    exact fun h => nomatch h
  · have hadds : Adds (leadingName false ++ gap ⟨true, true⟩ ++ mark ":" ++ part (.statement false)) 3 :=
      ⟨rfl, rfl⟩
    obtain ⟨t', ts, ht', hitems', houter', -⟩ := hrun.node_items hadds
    refine ⟨.labeledStatement, ts, by rw [hitems', hsettle ht'], by rw [houter', houter], ?_⟩
    exact fun h => nomatch h
  · obtain ⟨ts, tok, more, hitems', houter', htokens, hkind⟩ := expressionStatement_adds hc ht hrun
    exact ⟨_, ts, by rw [hitems', hitems], by rw [houter', houter], fun _ => ⟨tok, more, htokens, hkind⟩⟩

end ServerSplit.Js.Grammar
