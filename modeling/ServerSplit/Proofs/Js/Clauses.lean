import ServerSplit.Proofs.Js.Phrases

/-! Statements and functions read piece by piece. -/
namespace ServerSplit.Js.Grammar

open Rule Reader

variable {b t u v w : Text}

theorem passesGap_statement : PassesGap (part (.statement false)) := passesGap_gap.seq.part

/-! ### Ends -/

theorem sequenceTail_comes (n : Nat) (ts : List Tree) (us : List (List Tree)) :
    Comes (sequenceTail .ending) (fresh (';' :: u) n ts us) (some (fresh (';' :: u) n ts us)) := by
  have hcomma : Stuck [] (';' :: u) comma := stuck_mark rfl
  exact .opt_none (.seq (t := ready [] (';' :: u) n ts us) (.step rfl) ⟨0, hcomma.seq.seq.wrap.yields ready_ready⟩)

/-- Behind an expression comes the end of its statement. -/
theorem expressions_goes {start : Nat → List Tree → List (List Tree) → Reader}
    (h : Goes (expression .ending) start (';' :: u)) : Goes (part (.expressions .ending)) start (';' :: u) := by
  have htail : Goes (sequenceTail .ending) (fresh (';' :: u)) (';' :: u) :=
    fun n ts us => ⟨n, [], sequenceTail_comes n ts us, nofun⟩
  exact .part (h.seq htail)

theorem semicolon_goes : Goes (semicolon true) (fresh (';' :: u)) u :=
  fun n _ _ => ⟨n + 1, [tok .mark ";" n], ⟨20, fun _ => rfl⟩, Tree.collectOf_eq_nil.1 rfl⟩

/-! ### Blocks -/

/-- Behind the brace a semicolon is inserted. -/
theorem closingBrace_goes {o : Bool} (hb : ∀ c ∈ b, isGap c = true) (hinserted : Semicolon.isInserted o u = true) :
    Goes (closingBrace o) (fresh (b ++ '\x7d' :: u)) u := by
  intro n ts us
  have hbrace : Comes (mark "\x7d") (fresh (b ++ '\x7d' :: u) n ts us)
      (some (fresh u (n + b.size + 1) (.leaf ⟨.mark, b, ['\x7d'], n + b.size⟩ :: ts) us)) :=
    .behind passesGap_read (settle_fresh hb rfl) (.step rfl)
  refine ⟨n + b.size + 1, [.leaf ⟨.mark, b, ['\x7d'], n + b.size⟩], .seq hbrace (.step ?_),
    List.forall_mem_singleton.2 (Tree.decided_leaf _)⟩
  simp [Step.run, Reader.insertion, insertion.go, fresh, hinserted]

/-- At the end of a block no statement follows. -/
theorem statements_stop (hb : ∀ c ∈ b, isGap c = true) :
    Goes (many (part (.statement false))) (fresh (b ++ '\x7d' :: u)) (b ++ '\x7d' :: u) :=
  .many_stop fun _ _ _ => ⟨120, statement_none (bare_brace u) rfl rfl (settle_fresh hb rfl) ready_ready⟩

theorem statements_next (h : Goes (part (.statement false)) (fresh t) u)
    (hnext : Goes (many (part (.statement false))) (fresh u) v) : Goes (many (part (.statement false))) (fresh t) v :=
  .many_next trivial rfl rfl h hnext

theorem block_goes {o : Bool} (hstatements : Goes (many (part (.statement false))) (fresh t) v)
    (hclose : Goes (closingBrace o) (fresh v) u) : Goes (body o) (ready b ('\x7b' :: t)) u := by
  intro n ts us
  let brace : Tree := .leaf ⟨.mark, b, ['\x7b'], n⟩
  obtain ⟨m, new, hs, hnew⟩ := hstatements (n + 1) [brace] (ts :: us)
  obtain ⟨m', new', hc, hnew'⟩ := hclose m (new ++ [brace]) (ts :: us)
  refine ⟨m', [.node .statementBlock (new' ++ (new ++ [brace])).reverse], .part (.seq ?_ (.seq (.seq hs hc) (.step rfl))), ?_⟩
  · exact .seq (.seq (.step (ready_ready.settle {})) (.step rfl)) (.step rfl)
  · have hbrace : ∀ f ∈ [brace], f.Decided := List.forall_mem_singleton.2 (Tree.decided_leaf _)
    have hitems := List.forall_mem_append.2 ⟨hnew', List.forall_mem_append.2 ⟨hnew, hbrace⟩⟩
    exact List.forall_mem_singleton.2 (Tree.decided_reverse rfl hitems)

theorem passesGap_body {o : Bool} : PassesGap (body o) := passesGap_gap.seq.seq.seq.part

/-! ### Functions -/

/-- The words before the name of a function open its node, and are read up to the text `u`. -/
def OpensFunction (b t u : Text) : Prop :=
  ∀ n ts us, ∃ m new, Comes (gap {} ++ step .opening ++ opt (keyword "async") ++ keyword "function")
    (ready b t n ts us) (some (fresh u m new (ts :: us))) ∧ ∀ f ∈ new, f.Decided

theorem opensFunction_async : OpensFunction b ("async function".toList ++ ([' '] ++ t)) ([' '] ++ t) :=
  fun n _ _ => ⟨n + 14, [tok .mark "function" (n + 6) " ", .leaf ⟨.mark, b, "async".toList, n⟩], ⟨40, fun _ => rfl⟩,
    Tree.collectOf_eq_nil.1 rfl⟩

theorem startsFunction_async :
    Goes (startsFunction ⟨true, true⟩) (ready b ("async function".toList ++ ([' '] ++ t))) ([' '] ++ t) :=
  fun n _ _ => ⟨n + 14, [tok .mark "function" (n + 6) " ", .leaf ⟨.mark, b, "async".toList, n⟩], ⟨40, fun _ => rfl⟩,
    Tree.collectOf_eq_nil.1 rfl⟩

/-- A function with a name, from its words to the end of its block. -/
theorem functionForm_makes {r : Role} (hr : r ≠ .operand) (hwords : OpensFunction b t u)
    (hstar : Misses (mark "*") (fresh u)) (hname : Goes anyName (fresh u) v) {p : Text}
    (hparameters : Goes parameters (fresh v) p) (hbody : Goes (body (r ≠ .exported)) (fresh p) w) :
    Makes (.function .declaration) (functionForm r) (ready b t) w := by
  intro n ts us
  obtain ⟨m, new, hwords, hnew⟩ := hwords n ts us
  obtain ⟨m', new', hshape, hnew'⟩ := (hname.seq hparameters).seq hbody m new (ts :: us)
  refine ⟨m', (new' ++ new).reverse, ?_, fun f hf => List.forall_mem_append.2 ⟨hnew', hnew⟩ f (List.mem_reverse.1 hf)⟩
  refine .seq hwords (.right (.seq_none (hstar m new (ts :: us))) (.left (.seq hshape (.step ?_))))
  rw [if_neg hr]
  rfl

/-- A function that is a statement, where no operator follows. -/
theorem functionStatement_goes (hstarts : Goes (startsFunction ⟨true, true⟩) (ready b t) v)
    (hform : Makes (.function .declaration) (functionForm .statement) (ready b t) u)
    (hend : Misses operatorOnly (fresh u)) : Goes functionStatement (ready b t) u := by
  refine hstarts.seen fun n ts us => ?_
  obtain ⟨m, new, hform, hnew⟩ := hform n ts us
  exact ⟨m, [.node (.function .declaration) new],
    .seq (.part hform) (.left (.seq (.step rfl) (.left (.absent (hend m _ us))))),
    List.forall_mem_singleton.2 ((Tree.decided_node rfl).2 hnew)⟩

/-! ### Statements -/

/-- Braces that can only be a block. -/
theorem braces_goes (hcall : Misses callStart (ready b ('\x7b' :: t)))
    (hassignment : Misses assignmentStart (ready b ('\x7b' :: t)))
    (hobject : Misses objectFirst (ready b ('\x7b' :: t))) (hempty : Misses emptyObject (ready b ('\x7b' :: t)))
    (hshorthand : Misses shorthandObject (ready b ('\x7b' :: t)))
    (hclosed : Misses (mark "\x7b" ++ mark "\x7d") (ready b ('\x7b' :: t)))
    (h : Goes (body false) (ready b ('\x7b' :: t)) u) : Goes (part (.statement false)) (ready b ('\x7b' :: t)) u := by
  refine .part (.gap (.right (fun _ _ _ => ⟨40, fun _ => rfl⟩) (.left (.seen (goes_read rfl) ?_))))
  refine .right (fun n ts us => (hcall n ts us).present_none.seq_none.seq_none) ?_
  refine .right (fun n ts us => (hassignment n ts us).present_none.seq_none.seq_none) ?_
  refine .unseen (fun n ts us => .right (hcall n ts us) (hassignment n ts us)) ?_
  refine .right (fun n ts us => (hobject n ts us).seq_none) ?_
  refine .right (fun n ts us => (hempty n ts us).present_none.seq_none.seq_none) (.unseen hempty ?_)
  refine .right (fun n ts us => (hshorthand n ts us).present_none.seq_none.seq_none) ?_
  exact .right (fun n ts us => (hclosed n ts us).present_none.seq_none) h

theorem ifStatement_goes (hword : Lexeme.word "if" ("if".toList ++ t) = some ("if".toList, t))
    (hcondition : Goes (part .parenthesized) (fresh t) u) (hbody : Goes (part (.statement false)) (fresh u) v)
    (helse : Misses (keyword "else") (fresh v)) : Goes ifStatement (ready b ("if".toList ++ t)) v := by
  have hword : Goes (keyword "if") (ready b ("if".toList ++ t)) t := goes_read hword
  have hend : Goes (optThen (keyword "else") (part (.statement false))) (fresh v) v :=
    fun n ts us => ⟨n, [], .right (.seq_none (.seq_none (helse n ts us).present_none)) (helse n ts us).absent, nofun⟩
  exact (Goes.node (((hword.seq hcondition).seq hbody).seq hend)).goes rfl

theorem throwStatement_goes (hword : Lexeme.word "throw" ("throw".toList ++ t) = some ("throw".toList, t))
    (h : Goes (part (.operand .ending)) (fresh t) (';' :: u)) :
    Goes throwStatement (ready b ("throw".toList ++ t)) u := by
  have hword : Goes (keyword "throw") (ready b ("throw".toList ++ t)) t := goes_read hword
  exact (Goes.node ((hword.seq (expressions_goes (expression_goes rfl rfl rfl h))).seq semicolon_goes)).goes rfl

/-- The declaration of a constant, with its value. -/
theorem declaration_goes (h : Goes (part (.operand .ending)) (fresh t) (';' :: u)) :
    Goes declaredVariables (ready b ("const availableMethods =".toList ++ t)) u := by
  have hdeclarator : Goes (part .declarators) (fresh (" availableMethods =".toList ++ t)) u := by
    intro n ts us
    let name : Tree := tok .name "availableMethods" (n + 1) " "
    let equals : Tree := tok .mark "=" (n + 18) " "
    obtain ⟨m, new, hvalue, hnew⟩ := expression_goes rfl rfl rfl h (n + 19) [equals, name] (ts :: us)
    let declarator : Tree := .node .variableDeclarator (new ++ [equals, name]).reverse
    obtain ⟨m', new', hend, hnew'⟩ := semicolon_goes (u := u) m (declarator :: ts) us
    have hinitializer : hasInitializer declarator = true := by
      simp [declarator, hasInitializer, Tree.children, equals, tok, Tree.isMark]
    let rule : R := node .variableDeclarator (target ++ opt (gap ⟨true, false⟩ ++ mark "=" ++ expression .ending))
    have hvariable : Comes rule (fresh (" availableMethods =".toList ++ t) n ts us)
        (some (fresh (';' :: u) m (declarator :: ts) us)) := by
      have htarget : Comes target (ready [' '] ("availableMethods =".toList ++ t) (n + 1) [] (ts :: us))
          (some (fresh (" =".toList ++ t) (n + 17) [name] (ts :: us))) := .left (.step rfl)
      have hequals : Comes (gap ⟨true, false⟩ ++ mark "=") (fresh (" =".toList ++ t) (n + 17) [name] (ts :: us))
          (some (fresh t (n + 19) [equals, name] (ts :: us))) := .seq (.step rfl) (.step rfl)
      exact .node (t := ready [' '] ("availableMethods =".toList ++ t) (n + 1) ts us) rfl
        (.seq htarget (.opt_some (.seq hequals hvalue))) rfl
    have hlast : Comes (last hasInitializer) (fresh (';' :: u) m (declarator :: ts) us)
        (some (fresh (';' :: u) m (declarator :: ts) us)) := by
      refine .step ?_
      change (if hasInitializer declarator = true then _ else _) = _
      rw [if_pos hinitializer]
    have hdecided : declarator.Decided :=
      Tree.decided_reverse rfl (List.forall_mem_append.2 ⟨hnew, Tree.collectOf_eq_nil.1 rfl⟩)
    refine ⟨m', new' ++ [declarator], .part (.seq hvariable (.left (.seq hlast (.right ⟨20, fun _ => rfl⟩ ?_)))),
      List.forall_mem_append.2 ⟨hnew', List.forall_mem_singleton.2 hdecided⟩⟩
    rw [List.append_assoc]
    exact hend
  have hword : Goes (keyword "const" <|> keyword "let") (ready b ("const availableMethods =".toList ++ t))
      (" availableMethods =".toList ++ t) := .left (goes_read rfl)
  exact .right (fun _ _ _ => ⟨20, fun _ => rfl⟩) ((Goes.node (hword.seq hdeclarator)).goes rfl)

end ServerSplit.Js.Grammar
