import ServerSplit.Proofs.Js.Bare
import ServerSplit.Proofs.Js.Quoted

/-! How the source of a function is read that begins with a string. Its statement, its block, the function and
the source come to a result exactly if the string does; the result is told by the byte at which the literal ends
and by the tokens of the literal. -/
namespace ServerSplit.Js.Grammar

open Rule Reader

/-- The byte at which a literal ends and its tokens. -/
abbrev Literal := Nat × List Token

/-! ### The statement -/

/-- What follows the literal in its function. -/
def literalTail : Text := [';', ' ', '\x7d']

/-- The reader at the end of the literal's statement. -/
def atSemicolon (n : Nat) (ts : List Tree) (us : List (List Tree)) : Reader :=
  { rest := literalTail, offset := n, items := ts, outer := us }

/-- The reader behind the semicolon. -/
def behindSemicolon (n : Nat) (ts : List Tree) (us : List (List Tree)) : Reader :=
  { rest := [' ', '\x7d'], offset := n + 1, items := .leaf ⟨.mark, [], [';'], n⟩ :: ts, outer := us }

theorem sequenceTail_yields (n : Nat) (ts us : List Tree) (vs : List (List Tree)) :
    Yields 40 (sequenceTail .ending) (atSemicolon n (.node .string ts :: us) vs)
      (some (atSemicolon n (.node .string ts :: us) vs)) :=
  have hcomma : Stuck [] literalTail comma := stuck_mark rfl
  .opt_none (k := 38) (.seq (.step rfl) (hcomma.seq.seq.wrap.yields ⟨rfl, rfl, rfl⟩))

theorem semicolon_yields (n : Nat) (ts : List Tree) (us : List (List Tree)) :
    Yields 40 (semicolon true) (atSemicolon n ts us) (some (behindSemicolon n ts us)) := fun _ => rfl

def literalStatement (p : Literal) : Tree :=
  .node .expressionStatement [.node .string (p.2.map .leaf), .leaf ⟨.mark, [], [';'], p.1⟩]

def behindStatement (s : Reader) (p : Literal) : Reader :=
  { rest := [' ', '\x7d'], offset := p.1 + 1, items := literalStatement p :: s.items, outer := s.outer }

theorem expressionStatement_yields {b t : Text} (ht : Bare t) {k : Nat} {s : Reader} {o : Option Literal}
    (hs : s.Ready b t) (h : Yields k string s.opened (o.map (behindLiteral s.opened literalTail))) :
    Yields (k + 80) expressionStatement s (o.map (behindStatement s)) := by
  have hoperand := operand_yields (x := .ending) ht hs.opened h
  cases o with
  | none =>
    have hexpressions : Yields (k + 60) (part (.expressions .ending)) s.opened none :=
      .part (.seq_none (.part (.seq_none (.part (hoperand.mono (by omega))))))
    exact .node_none (hs.settle {}) (.seq_none (hexpressions.mono (by omega)))
  | some p =>
    have hstop : Yields (k + 51) (many (part (.continuation .ending 0)))
        (behindLiteral s.opened literalTail p) (some (behindLiteral s.opened literalTail p)) :=
      .many_stop (.part (yields_none fun _ _ => continuation_stuck rfl rfl rfl rfl rfl rfl))
    have hexpression : Yields (k + 53) (expression .ending) s.opened _ :=
      .part (.seq (.part (hoperand.mono (by omega))) hstop)
    have hexpressions : Yields (k + 75) (part (.expressions .ending)) s.opened _ :=
      .part (.seq (hexpression.mono (by omega)) ((sequenceTail_yields _ _ _ _).mono (by omega)))
    exact .node (hs.settle {}) (.seq hexpressions ((semicolon_yields _ _ _).mono (by omega))) rfl

/-- At the end of a block or of the text there is no statement. -/
theorem statement_none {b t : Text} (ht : Bare t) (hdouble : Lexeme.exactly ['"'] t = none)
    (hsingle : Lexeme.exactly ['\''] t = none) {s u : Reader} (hgap : s.settle {} = some u) (hu : u.Ready b t) :
    Yields 120 (part (.statement false)) s none :=
  statement_yields (k := 80) ht hgap hu
    (expressionStatement_yields (k := 0) (o := none) ht hu ((string_stuck hdouble hsingle).yields hu.opened))

/-! ### The block -/

theorem bare_quote {q : Char} (hq : q = '"' ∨ q = '\'') (t : Text) : Bare (q :: t) := by
  intro c hc
  cases hc
  rcases hq with rfl | rfl <;> decide

theorem bare_brace (t : Text) : Bare ('\x7d' :: t) := by
  intro c hc
  cases hc
  decide

theorem bare_nil : Bare [] := fun _ hc => nomatch hc

theorem closes_quote {q : Char} (hq : q = '"' ∨ q = '\'') : Closes q literalTail := by
  have hline : ∀ c ∈ literalTail, Comment.endsLine c = false := by
    simp [literalTail, Comment.endsLine, isLineEnd, isLineSeparator, isNul]
  rcases hq with rfl | rfl
  · exact ⟨⟨by decide, by decide, List.forall_mem_cons.2 ⟨rfl, hline⟩, by decide⟩, by decide, by decide⟩
  · exact ⟨⟨by decide, by decide, List.forall_mem_cons.2 ⟨rfl, hline⟩, by decide⟩, by decide, by decide⟩

/-- The literal of a text in quotes, and what follows it. -/
def literalText (q : Char) (d : Text) : Text := q :: (d ++ q :: literalTail)

def literalBlock (p : Literal) : Tree :=
  .node .statementBlock
    [.leaf ⟨.mark, [' '], ['\x7b'], 13⟩, literalStatement p, .leaf ⟨.mark, [' '], ['\x7d'], p.1 + 2⟩]

/-- The reader before the block of the function and the text in it. -/
def beforeBlock (ts : List Tree) (t : Text) : Reader :=
  { rest := ' ' :: '\x7b' :: ' ' :: t, offset := 12, items := ts, outer := [[]] }

def behindBlock (ts : List Tree) (p : Literal) : Reader :=
  { rest := [], offset := p.1 + 3, items := literalBlock p :: ts, outer := [[]] }

/-- The reader before the statement in the block. -/
def beforeStatement (ts : List Tree) (t : Text) : Reader :=
  { rest := ' ' :: t, offset := 14, items := [.leaf ⟨.mark, [' '], ['\x7b'], 13⟩], outer := [ts, []] }

/-- The reader at the end of the block. -/
def beforeBrace (n : Nat) (ts : List Tree) (us : List (List Tree)) : Reader :=
  { rest := [' ', '\x7d'], offset := n, items := ts, outer := us }

def behindBrace (n : Nat) (ts : List Tree) (us : List (List Tree)) : Reader :=
  { rest := [], offset := n + 2, items := .leaf ⟨.mark, [' '], ['\x7d'], n + 1⟩ :: ts, outer := us }

theorem closingBrace_yields (n : Nat) (ts : List Tree) (us : List (List Tree)) :
    Yields 40 (closingBrace true) (beforeBrace n ts us) (some (behindBrace n ts us)) := fun _ => rfl

variable {q : Char} {d : Text}

/-- The statements of the block come to what its literal comes to. -/
theorem statements_yield (hq : q = '"' ∨ q = '\'') (hd : Unescaped q d) (ts : List Tree) :
    ∃ o : Option Literal, o.isSome = StringLiteral.holds d ∧ (∀ p ∈ o, p.2.head? = some ⟨.mark, [' '], [q], 15⟩) ∧
      Yields (d.length + 195) (many (part (.statement false)) ++ closingBrace true)
        (beforeStatement ts (literalText q d)) (o.map fun p => behindBrace (p.1 + 1)
          [literalStatement p, .leaf ⟨.mark, [' '], ['\x7b'], 13⟩] [ts, []]) := by
  let s : Reader := beforeStatement ts (literalText q d)
  let u : Reader := { s with rest := literalText q d, offset := 15, blank := [' '], settled := true }
  have hgap : s.settle {} = some u := by rcases hq with rfl | rfl <;> rfl
  have hu : u.Ready [' '] (literalText q d) := ⟨rfl, rfl, rfl⟩
  have hbare : Bare (literalText q d) := bare_quote hq _
  obtain ⟨o, hheld, ho, hstring⟩ := string_yields hq (closes_quote hq) hd hu.opened
  have hstatement := statement_yields hbare hgap hu (expressionStatement_yields hbare hu hstring)
  refine ⟨o, hheld, fun p hp => (ho p hp).2, ?_⟩
  cases o with
  | none =>
    have hclose : (Step.token .mark (Lexeme.exactly ['\x7d'])).run s = none := by
      rcases hq with rfl | rfl <;> rfl
    exact .seq (.many_stop (hstatement.mono (by omega))) (.seq_none (.step hclose))
  | some p =>
    have hend : Yields 120 (part (.statement false)) (behindStatement u p) none :=
      statement_none (bare_brace []) rfl rfl (u := { behindStatement u p with
        rest := ['\x7d'], offset := p.1 + 2, blank := [' '], settled := true }) rfl ⟨rfl, rfl, rfl⟩
    have hlt : s.offset < (behindStatement u p).offset := by
      have : 15 < p.1 := (ho p rfl).1
      change 14 < p.1 + 1
      omega
    exact .seq (.many_next (hstatement.mono (by omega)) hlt (.many_stop (hend.mono (by omega))))
      ((closingBrace_yields _ _ _).mono (by omega))

theorem block_yields (hq : q = '"' ∨ q = '\'') (hd : Unescaped q d) (ts : List Tree) :
    ∃ o : Option Literal, o.isSome = StringLiteral.holds d ∧ (∀ p ∈ o, p.2.head? = some ⟨.mark, [' '], [q], 15⟩) ∧
      Yields (d.length + 200) (body true) (beforeBlock ts (literalText q d)) (o.map (behindBlock ts)) := by
  obtain ⟨o, hheld, ho, hstatements⟩ := statements_yield hq hd ts
  have hopen : Yields (d.length + 198) (gap {} ++ step .opening ++ mark "\x7b") (beforeBlock ts (literalText q d))
      (some (beforeStatement ts (literalText q d))) := .seq (.seq (.step rfl) (.step rfl)) (.step rfl)
  refine ⟨o, hheld, ho, .part (.seq hopen ?_)⟩
  cases o with
  | none => exact .seq_none (hstatements.mono (by omega))
  | some p => exact .seq (hstatements.mono (by omega)) (.step rfl)

/-! ### The function -/

/-- What the function consists of before its block, last first. -/
def functionHead : List Tree :=
  [.node .parameters [.leaf ⟨.mark, [], ['('], 10⟩, .leaf ⟨.mark, [], [')'], 11⟩], .leaf ⟨.name, [' '], ['f'], 9⟩,
    .leaf ⟨.mark, [], "function".toList, 0⟩]

def literalFunction (p : Literal) : Tree :=
  .node (.function .declaration) (functionHead.reverse ++ [literalBlock p])

/-- The text of the function up to its literal. -/
def functionStart : Text := "function f() \x7b ".toList

/-- The reader behind the word `function`. -/
def behindWord (t : Text) : Reader :=
  { rest := ' ' :: 'f' :: '(' :: ')' :: ' ' :: '\x7b' :: ' ' :: t, offset := 8
    items := [.leaf ⟨.mark, [], "function".toList, 0⟩], outer := [[]] }

/-- The reader behind the name. -/
def behindName (t : Text) : Reader :=
  { rest := '(' :: ')' :: ' ' :: '\x7b' :: ' ' :: t, offset := 10
    items := [.leaf ⟨.name, [' '], ['f'], 9⟩, .leaf ⟨.mark, [], "function".toList, 0⟩], outer := [[]] }

theorem parameters_yields (t : Text) : Yields 60 parameters (behindName t) (some (beforeBlock functionHead t)) := by
  let s : Reader := { behindName t with settled := true }
  let u : Reader :=
    { rest := ')' :: ' ' :: '\x7b' :: ' ' :: t, offset := 11, items := [.leaf ⟨.mark, [], ['('], 10⟩]
      outer := [(behindName t).items, []] }
  have hat : u.At ')' := rfl
  have hitem {k : Nat} : Yields k (spread <|> expression {}) u none :=
    yields_none fun N s' => Blocked.orElse (.node foreign_paren.code (foreign_paren.mark rfl).seq)
      (expression_blocked {}) N u s' hat
  have hcomma {k : Nat} : Yields k (comma ++ opt (spread <|> expression {})) u none :=
    yields_none fun N s' => (foreign_paren.mark rfl).seq N u s' hat
  have hlist : Yields 52 (mark "(" ++ separated comma (spread <|> expression {}) ++ mark ")") s.opened _ :=
    .seq (.seq (.step rfl) (.seq (.opt_none hitem) (.many_stop hcomma))) (.step rfl)
  exact .seq (.part (.mono (.node rfl hlist rfl) (by omega))) (.step rfl)

theorem functionForm_yields (hq : q = '"' ∨ q = '\'') (hd : Unescaped q d) :
    ∃ o : Option Literal, o.isSome = StringLiteral.holds d ∧ (∀ p ∈ o, p.2.head? = some ⟨.mark, [' '], [q], 15⟩) ∧
      Yields (d.length + 220) (part (.functionForm .statement))
        { ofText (functionStart ++ literalText q d) with settled := true }
        (o.map fun p => { rest := [], offset := p.1 + 3, items := [literalFunction p] }) := by
  obtain ⟨o, hheld, ho, hblock⟩ := block_yields hq hd functionHead
  let t := literalText q d
  have hword : Yields 60 (gap {} ++ step .opening ++ opt (keyword "async") ++ keyword "function")
      { ofText (functionStart ++ t) with settled := true } (some (behindWord t)) :=
    .seq (.seq (.seq (.step rfl) (.step rfl)) (.opt_none (.step rfl))) (.step rfl)
  have hname : Yields 61 (anyName ++ parameters) (behindWord t) (some (beforeBlock functionHead t)) :=
    .seq (t := behindName t) (.step rfl) (parameters_yields t)
  have hbody : Yields (d.length + 215) (anyName ++ parameters ++ body true) (behindWord t) _ :=
    .seq (hname.mono (by omega)) (hblock.mono (by omega))
  have hstar {k : Nat} {a : R} : Yields (k + 2) (mark "*" ++ a) (behindWord t) none := .seq_none (.step rfl)
  refine ⟨o, hheld, ho, .part (.seq (hword.mono (by omega)) (.right hstar ?_))⟩
  cases o with
  | none =>
    have hparameters {k : Nat} : Yields (k + 9) parameters (behindWord t) none :=
      .seq_none (.part (.node_none rfl (.seq_none (.seq_none (.step rfl)))))
    exact .right (.seq_none hbody) (.seq_none (.seq_none hparameters))
  | some p => exact .left (.seq hbody (.step rfl))

/-! ### The source -/

/-- The source of a function that begins with the text in quotes. -/
def literalSource (q : Char) (d : Text) : Text := functionStart ++ literalText q d

theorem unled_function (t : Text) : Unled [] (functionStart ++ t) where
  mark s hs := by
    refine stuck_read ?_
    fin_cases hs <;> rfl
  word s hs := by
    refine stuck_read ?_
    fin_cases hs <;> rfl

/-- Where a statement begins with the word `function`, it is a function or nothing. -/
theorem functionStatement_yields {t : Text} {k : Nat} {s u : Reader} {o : Option Reader} (hgap : s.settle {} = some u)
    (hu : u.Ready [] (functionStart ++ t)) (h : Yields k functionStatement u o) :
    Yields (k + 100) (part (.statement false)) s o := by
  have hled : Unled [] (functionStart ++ t) := unled_function t
  have hword : Lexeme.word "function" (functionStart ++ t) =
      some ("function".toList, functionStart.drop 8 ++ t) := rfl
  let v : Reader := { u.push .mark "function".toList (functionStart.drop 8 ++ t) with closed := false }
  have hfunction : Yields 10 (startsFunction ⟨true, true⟩) u (some v) := .left (.step (hu.token .mark hword))
  have hstart : Yields 40 (anyOf statementStarts) u (some v) := by
    have stuck {r : R} (hr : Stuck [] (functionStart ++ t) r) :
        r = startsFunction ⟨true, true⟩ ∨ Yields 18 r u none := .inr (hr.yields hu)
    refine .anyOf startsFunction_mem (hfunction.mono (by omega)) (List.forall_mem_append.2 ⟨?_, ?_⟩)
    · refine List.forall_mem_map.2 fun w hw => stuck (hled.word w ?_)
      fin_cases hw <;> simp [leadWords]
    · simp only [List.forall_mem_cons]
      exact ⟨stuck (hled.mark _ (by simp)), stuck (hled.word _ (by simp [leadWords])),
        stuck (hled.mark _ (by simp)), .inl trivial, stuck (hled.startsVariables _ _),
        stuck (hled.word _ (by simp [leadWords])).seq.seq, by simp⟩
  have hplain : Yields 62 plainStatement u none := .seq_none (.absent_none (hstart.mono (by omega)))
  refine .part (.seq (.step hgap) ?_)
  refine .mono (.anyOf (k := k + 70) functionStatement_mem (h.mono (by omega)) fun r hr => ?_) (Nat.le_add_right _ 6)
  rcases statementForms_cases hr with hr | rfl | rfl
  · exact .inr ((hled.stuck hr).yields hu)
  · exact .inl rfl
  · exact .inr (hplain.mono (by omega))

def literalTree (p : Literal) : Tree := .node .program [literalFunction p]

theorem program_yields (hq : q = '"' ∨ q = '\'') (hd : Unescaped q d) :
    ∃ o : Option Literal, o.isSome = StringLiteral.holds d ∧ (∀ p ∈ o, p.2.head? = some ⟨.mark, [' '], [q], 15⟩) ∧
      ∃ s : Reader, Yields (d.length + 400) program (ofText (literalSource q d)) (some s) ∧ s.outer = [] ∧
        match o with
        | some p => s.rest = [] ∧ s.blank = [] ∧ s.items = [literalFunction p]
        | none => s.rest ≠ [] := by
  let s : Reader := ofText (literalSource q d)
  let u : Reader := { s with settled := true }
  have hgap : s.settle {} = some u := rfl
  obtain ⟨o, hheld, ho, hform⟩ := functionForm_yields hq hd
  refine ⟨o, hheld, ho, ?_⟩
  have hhash {k : Nat} : Yields (k + 2) (opt (read .hashBang Lexeme.hashBang)) s (some s) := .opt_none (.step rfl)
  have hpresent {k : Nat} : Yields (k + 3) (present (startsFunction ⟨true, true⟩)) u (some u) :=
    .present (.left (.step rfl))
  cases o with
  | none =>
    have hfunction : Yields (d.length + 250) functionStatement u none :=
      .seq hpresent (.seq_none (hform.mono (by omega)))
    have hstatement := functionStatement_yields hgap ⟨rfl, rfl, rfl⟩ hfunction
    exact ⟨u, .seq (.seq hhash (.many_stop (hstatement.mono (by omega)))) (.step hgap), rfl, List.cons_ne_nil _ _⟩
  | some p =>
    let v : Reader := { rest := [], offset := p.1 + 3, items := [literalFunction p] }
    have hend {k : Nat} : Yields (k + 3) (absent operatorOnly) v (some v) := .absent (.seq_none (.step rfl))
    have hfunction : Yields (d.length + 250) functionStatement u (some v) :=
      .seq hpresent (.seq (hform.mono (by omega)) (.left (.seq (.step rfl) (.left hend))))
    have hstatement := functionStatement_yields hgap ⟨rfl, rfl, rfl⟩ hfunction
    have hstop : Yields 120 (part (.statement false)) v none :=
      statement_none bare_nil rfl rfl (u := { v with settled := true }) rfl ⟨rfl, rfl, rfl⟩
    have hstatements : Yields (d.length + 398) (many (part (.statement false))) s (some v) :=
      .many_next (hstatement.mono (by omega)) (Nat.succ_pos _) (.many_stop (hstop.mono (by omega)))
    exact ⟨{ v with settled := true }, .seq (.seq hhash hstatements) (.step rfl), rfl, rfl, rfl, rfl⟩

end ServerSplit.Js.Grammar

namespace ServerSplit.Js

open Grammar Rule

/-- With enough fuel for the rule of a whole source, its result is that of the source. -/
theorem parse_of_yields {t : Text} {k : Nat} {s : Reader} (h : Yields k program (Reader.ofText t) (some s))
    (hk : k ≤ 1024 * (t.length + 1)) :
    let tree := Tree.node .program s.items.reverse
    parse t =
      if s.rest.isEmpty && s.outer.isEmpty && (tree.collect Tree.isUndecided).isEmpty then some tree else none := by
  obtain ⟨n, hn⟩ := Nat.exists_eq_add_of_le' hk
  simp only [parse, hn, h n]

theorem collectOf_leaves {p : Tree → Bool} (hp : ∀ u, p (.leaf u) = false) (us : List Token) :
    Tree.collectOf p (us.map .leaf) = [] := by
  induction us with
  | nil => rfl
  | cons u us ih => simp [Tree.collectOf, Tree.collect, hp, ih]

theorem tokensOf_leaves (us : List Token) : Tree.tokensOf (us.map .leaf) = us := by
  induction us with
  | nil => rfl
  | cons u us ih => simp [Tree.tokensOf, Tree.tokens, ih]

theorem spell_literalFunction (p : Literal) :
    spell (literalFunction p).tokens = "function f() \x7b".toList ++ (spell p.2 ++ literalTail) := by
  simp [literalFunction, functionHead, literalBlock, literalStatement, Tree.tokens, Tree.tokensOf, tokensOf_leaves,
    literalTail]

theorem literalTree_decided (p : Literal) : (literalTree p).collect Tree.isUndecided = [] := by
  have hpieces := collectOf_leaves (p := Tree.isUndecided) (fun _ => rfl) p.2
  simp [literalTree, Tree.collect, Tree.collectOf, literalFunction, functionHead, literalBlock, literalStatement,
    hpieces, Tree.isUndecided, Tree.isKind, Tree.children]

/-- A literal whose first token is its opening quote holds what stands between its quotes. -/
theorem contents_of_spell {q : Char} {d : Text} {ts : List Token} {n : Nat}
    (hfirst : ts.head? = some ⟨.mark, [' '], [q], n⟩) (hspell : spell ts = ' ' :: q :: (d ++ [q])) :
    (Tree.node .string (ts.map .leaf)).contents = d := by
  obtain ⟨us, rfl⟩ := List.head?_eq_some_iff.1 hfirst
  have hbody : spell us = d ++ [q] := by simpa using hspell
  have htext : (Tree.node .string (List.map .leaf (⟨.mark, [' '], [q], n⟩ :: us))).text = q :: spell us := by
    rw [Tree.text, Tree.tokens, tokensOf_leaves]
    rfl
  rw [Tree.contents, htext, hbody, List.drop_one, List.tail_cons, List.dropLast_concat]

/-- The source of a function that begins with a text in quotes is read exactly if a literal can hold the text. -/
theorem parse_literalSource {q : Char} {d : Text} (hq : q = '"' ∨ q = '\'') (hd : Unescaped q d) :
    ∃ o : Option Literal, o.isSome = StringLiteral.holds d ∧ parse (literalSource q d) = o.map literalTree ∧
      ∀ p ∈ o, (Tree.node .string (p.2.map .leaf)).contents = d := by
  obtain ⟨o, hheld, ho, s, hyields, houter, hs⟩ := program_yields hq hd
  have hlength : d.length + 400 ≤ 1024 * ((literalSource q d).length + 1) := by
    simp only [literalSource, literalText, List.length_append, List.length_cons]
    omega
  have hparse := parse_of_yields hyields hlength
  refine ⟨o, hheld, ?_⟩
  cases o with
  | none =>
    have hrest : s.rest.isEmpty = false := by simpa using hs
    exact ⟨by simp [hparse, hrest], by simp⟩
  | some p =>
    obtain ⟨hrest, hblank, hitems⟩ := hs
    constructor
    · have hdecided := literalTree_decided p
      rw [literalTree] at hdecided
      simp only [hparse, hitems, List.reverse_singleton, hrest, houter, hdecided, List.isEmpty_nil, Bool.and_self,
        if_true]
      rfl
    · intro p' hp'
      cases hp'
      refine contents_of_spell (ho p rfl) ?_
      have htrees : s.trees = [literalFunction p] := by simp [Reader.trees, hitems, houter]
      have htext := (run_covers Grammar.program_readsHeads (Reader.ofText_covers _) (hyields 0)).text
      rw [htrees, hblank, hrest, List.append_nil, List.append_nil, Tree.tokensOf_singleton,
        spell_literalFunction] at htext
      have hliteral : spell p.2 ++ literalTail = ' ' :: q :: (d ++ q :: literalTail) := List.append_cancel_left htext
      refine List.append_cancel_right (hliteral.trans ?_)
      simp

end ServerSplit.Js
