import ServerSplit.Proofs.Js.Every
import ServerSplit.Proofs.Js.Openings

/-! What a function is read from. A function whose text begins as a stub does has no string at the
start of its body. -/
namespace ServerSplit.Js

open Grammar (R Part Foreign)

namespace Lexeme

theorem isCodeStart_of_startsName {c : Char} (h : startsName c = true) : isCodeStart c = true := by
  have hname : isNameChar c = true ∨ c = '\\' := by
    simp only [startsName, Bool.or_eq_true, Bool.and_eq_true, decide_eq_true_eq] at h
    exact h.symm.imp_left And.left
  rcases hname with hname | rfl
  · simp only [isNameChar, Bool.and_eq_true, Bool.not_eq_true'] at hname
    obtain ⟨⟨-, hgap⟩, hpunctuation⟩ := hname
    have hne {d : Char} (hd : namePunctuation.contains d = true) : c ≠ d := by
      rintro rfl
      rw [hpunctuation] at hd
      cases hd
    simp only [isCodeStart, hgap, Bool.not_false, Bool.true_and, Bool.and_eq_true, bne_iff_ne]
    exact ⟨⟨hne rfl, hne rfl⟩, hne rfl⟩
  · rfl

end Lexeme

namespace Reader

/-- A token where the gap has been read. -/
theorem token_settled {k : Leaf} {reads : Reads} {s s' : Reader} (hsettled : s.settled = true)
    (hs : (Step.token k reads).run s = some s') : ∃ tok, ReadsOne k reads 0 s.rest s s' tok := by
  obtain ⟨t, ht, hs⟩ := Option.bind_eq_some_iff.1 hs
  unfold settle at ht
  rw [if_pos hsettled] at ht
  cases ht
  obtain ⟨⟨w, r⟩, hreads, rfl⟩ := Option.map_eq_some_iff.1 hs
  exact ⟨_, hreads, rfl, rfl, rfl, rfl, rfl, rfl⟩

/-- A token with nothing before it. -/
theorem glued_settled {k : Leaf} {reads : Reads} {s s' : Reader} (hs : (Step.glued k reads).run s = some s') :
    s.blank = [] ∧ ∃ tok, ReadsOne k reads 0 s.rest s s' tok := by
  simp only [Step.run] at hs
  split at hs
  · rename_i hblank
    obtain ⟨⟨w, r⟩, hreads, rfl⟩ := Option.map_eq_some_iff.1 hs
    exact ⟨List.isEmpty_iff.1 hblank, _, hreads, rfl, rfl, rfl, rfl, rfl, rfl⟩
  · cases hs

theorem token_settle {k : Leaf} {reads : Reads} {s s' : Reader}
    (hs : (Step.token k reads).run s = some s') :
    ∃ t tok, s.settle {} = some t ∧ ReadsOne k reads 0 t.rest t s' tok := by
  obtain ⟨t, ht, hs⟩ := Option.bind_eq_some_iff.1 hs
  have hsettled := settled_of_settle ht
  have hrun : (Step.token k reads).run t = some s' := by
    change (t.settle {}).bind (take k reads) = some s'
    unfold settle
    rw [if_pos hsettled]
    exact hs
  obtain ⟨tok, htok⟩ := token_settled hsettled hrun
  exact ⟨t, tok, ht, htok⟩

/-- Behind a word the text goes on with what follows it. -/
theorem ReadsOne.rest_word {k : Leaf} {word : String} {n : Nat} {t u : Text} {s s' : Reader} {tok : Token}
    (h : ReadsOne k (Lexeme.word word) n t s s' tok) (ht : t = word.toList ++ u) : s'.rest = u := by
  have hword := (Lexeme.word_eq_some h.reads).2
  rw [ht] at hword
  exact (List.append_cancel_left hword).symm

/-- Behind punctuation the text goes on with what follows it. -/
theorem ReadsOne.rest_mark {k : Leaf} {m : Text} {n : Nat} {t u : Text} {s s' : Reader} {tok : Token}
    (h : ReadsOne k (Lexeme.exactly m) n t s s' tok) (ht : t = m ++ u) : s'.rest = u := by
  have hmark := (Lexeme.exactly_eq_some h.reads).2
  rw [ht] at hmark
  exact (List.append_cancel_left hmark).symm

end Reader

namespace Grammar
open Rule Reader

/-! ### Empty parentheses -/

theorem foreign_paren : Foreign ')' := ⟨rfl, rfl, rfl⟩

/-- At a closing parenthesis no expression can be read. -/
theorem expression_blocked (x : Ctx) : Blocked ')' (expression x) := by
  refine .part (.seq (.part ?_))
  intro N s s' hs hrun
  obtain ⟨t, hsettle, hname⟩ := operand_of_foreign foreign_paren hs hrun
  have ht : t.At ')' := by
    rw [At, (settle_at foreign_paren.code hs hsettle).rest]
    exact hs
  exact (blocked_read foreign_paren.code (Lexeme.never_nameExcept _ rfl)).seq N t s' ht hname

theorem separated_blocked {c : Char} {sep a : R} (hsep : Blocked c sep) (ha : Blocked c a) {N : Nat}
    {s s' : Reader} (hs : s.At c) (h : Runs N (separated sep a) s s') : s' = s := by
  obtain ⟨t, hopt, hmany⟩ := h.seq
  obtain rfl : t = s := hopt.opt.resolve_left (ha N s t hs)
  rcases hmany.many with h | ⟨u, hu, -⟩
  · exact h
  · exact absurd hu (hsep.seq N t u hs)

/-- Behind empty parentheses the text goes on with what follows them. -/
theorem arguments_empty {b u : Text} (hb : ∀ d ∈ b, isGap d = true) {N : Nat} {s s' : Reader}
    (hsettled : s.settled = false ∨ b = []) (hrest : s.rest = b ++ '(' :: ')' :: u)
    (h : Runs N (part .arguments) s s') : s'.rest = u ∧ s'.settled = false := by
  obtain ⟨M, -, h⟩ := h.part
  obtain ⟨t, v, hsettle, hrun, hend⟩ := h.node
  have ht := settle_blanks rfl hb hsettled hrest hsettle
  obtain ⟨w, hrun, hclose⟩ := hrun.seq
  obtain ⟨x, hopen, hseparated⟩ := hrun.seq
  obtain ⟨p, hp⟩ := token_settled (settled_opened hsettle) hopen.step
  have hx : x.rest = ')' :: u := hp.rest_mark ht.rest
  have hcode : x.At ')' := by
    rw [At, hx]
    rfl
  have hitem : Blocked ')' (spread <|> expression {}) :=
    .orElse (.node foreign_paren.code (foreign_paren.mark rfl).seq) (expression_blocked {})
  obtain rfl := separated_blocked (foreign_paren.mark rfl) hitem hcode hseparated
  obtain ⟨q, hq⟩ := token_at rfl hcode hclose.step
  have hv : v.rest = u := hq.rest_mark hx
  simp only [Step.run] at hend
  split at hend
  · cases hend
  · cases hend
    exact ⟨hv, hq.settled⟩

theorem parameters_runs {N : Nat} {s s' : Reader} (h : Runs N parameters s s') :
    ∃ t u ps, s.settle {} = some t ∧ Runs N (part .arguments) s u ∧
      s'.items = .node .parameters ps :: t.items ∧ s'.rest = u.rest ∧ s'.settled = u.settled := by
  obtain ⟨u, harguments, hrecast⟩ := h.seq
  obtain ⟨M, -, hnode⟩ := harguments.part
  have hadds : Adds (mark "(" ++ separated comma (spread <|> expression {}) ++ mark ")") 2 := ⟨rfl, rfl⟩
  obtain ⟨t, ts, hsettle, hitems, -, -⟩ := hnode.node_items hadds
  obtain ⟨us, hus, rfl⟩ := Option.map_eq_some_iff.1 hrecast.step
  rw [hitems] at hus
  obtain ⟨v, hv, rfl⟩ := Option.map_eq_some_iff.1 hus
  obtain ⟨-, -, hv⟩ := Option.bind_eq_some_iff.1 hv
  obtain ⟨-, -, hv⟩ := Option.bind_eq_some_iff.1 hv
  obtain ⟨ps, -, hv⟩ := Option.bind_eq_some_iff.1 hv
  cases hv
  exact ⟨t, u, ps, hsettle, harguments, rfl, rfl, rfl⟩

/-! ### Blocks -/

/-- A block is a brace, statements and a brace, and one node on top. -/
theorem block_runs {o : Bool} {N : Nat} {s s' : Reader} (h : Runs N (body o) s s') :
    ∃ M < N, ∃ t v w x, s.settle {} = some t ∧ Runs M (mark "\x7b") t.opened v ∧
      Runs M (many (part (.statement false))) v w ∧ Runs M (closingBrace o) w x ∧
      s'.items = .node .statementBlock x.items.reverse :: t.items := by
  obtain ⟨M, hM, h⟩ := h.part
  obtain ⟨v, h, hrest⟩ := h.seq
  obtain ⟨y, h, hbrace⟩ := h.seq
  obtain ⟨t, hgap, hopening⟩ := h.seq
  obtain ⟨x, hrest, hend⟩ := hrest.seq
  obtain ⟨w, hmany, hclosing⟩ := hrest.seq
  cases hopening.step
  have hadds₁ : Adds (mark "\x7b") 1 := ⟨rfl, rfl⟩
  have hadds₂ : Adds (many (part (.statement false))) 0 := ⟨rfl, rfl⟩
  have hadds₃ : Adds (closingBrace o) 1 := ⟨rfl, rfl⟩
  obtain ⟨-, -, hv, -⟩ := hadds₁.items hbrace
  obtain ⟨-, -, hw, -⟩ := hadds₂.items hmany
  obtain ⟨-, -, hx, -⟩ := hadds₃.items hclosing
  have houter : x.outer = t.items :: t.outer := by rw [hx, hw, hv]
  have hend := hend.step
  simp only [Step.run, houter] at hend
  cases hend
  exact ⟨M, hM, t, v, w, x, hgap.step, hbrace, hmany, hclosing, rfl⟩

end Grammar

/-! ### Strings at the start of a body -/

namespace Tree

/-- If the tree is a string, it begins with a mark, which is its quote. -/
def IsQuoted (t : Tree) : Prop := ∀ ts, t = .node .string ts → ∃ m us, ts = .leaf m :: us ∧ m.kind = .mark

/-- An expression that begins with a name is no string. -/
theorem stringLiteral?_eq_none {ts : List Tree} (hts : ∀ t ∈ ts, IsQuoted t) {tok : Token}
    {more : List Token} (h : tokensOf ts = tok :: more) (hk : tok.kind = .name) :
    (node .expressionStatement ts).stringLiteral? = none := by
  cases hl : (node .expressionStatement ts).stringLiteral? with
  | none => rfl
  | some l =>
    obtain ⟨hfind, hstring⟩ := Option.filter_eq_some_iff.1 hl
    obtain ⟨-, as, bs, rfl, has⟩ := List.find?_eq_some_iff_append.1 hfind
    cases as with
    | nil =>
      cases l with
      | leaf t => cases hstring
      | node k us =>
        obtain rfl : k = .string := of_decide_eq_true hstring
        obtain ⟨m, vs, rfl, hm⟩ := hts _ (by simp) us rfl
        simp only [List.nil_append, tokensOf, tokens, List.cons_append, List.cons.injEq] at h
        rw [← h.1, hm] at hk
        cases hk
    | cons a as =>
      have hno := has a (by simp)
      cases a with
      | leaf t =>
        simp only [List.cons_append, tokensOf, tokens, List.nil_append, List.cons.injEq] at h
        rw [h.1] at hno
        simp [isNamed, Token.isNamed, isTrivia, isLeaf, hk] at hno
      | node k us => simp [isNamed, isTrivia, isLeaf] at hno

theorem prologue_node {k : Kind} {ts us : List Tree} (h : (node k ts).stringLiteral? = none) :
    prologue (node k ts :: us) = [] := by
  rw [prologue, h]
  rfl

theorem prologue_mark {t : Token} (h : t.kind = .mark) (ts : List Tree) :
    prologue (leaf t :: ts) = prologue ts := by
  rw [prologue]
  simp [isNamed, Token.isNamed, h]

end Tree

namespace Grammar
open Rule Reader

/-- A block that goes on with a foreign character has no string at its start. -/
theorem block_prologue {c : Char} (hc : Foreign c) (hclose : c ≠ '\x7d') {b₀ b u : Text}
    (hb₀ : ∀ d ∈ b₀, isGap d = true) (hb : ∀ d ∈ b, isGap d = true) {o : Bool} {N : Nat} {s s' : Reader}
    (hsettled : s.settled = false ∨ b₀ = []) (hrest : s.rest = b₀ ++ '\x7b' :: (b ++ c :: u))
    (h : Runs N (body o) s s') (hquoted : s'.Every Tree.IsQuoted) :
    ∃ bs, s'.items = .node .statementBlock bs :: s.items ∧ Tree.prologue bs = [] := by
  obtain ⟨M, -, t, v, w, x, hsettle, hbrace, hmany, hclosing, hblock⟩ := block_runs h
  have ht := settle_blanks rfl hb₀ hsettled hrest hsettle
  obtain ⟨p, hp⟩ := token_settled (settled_opened hsettle) hbrace.step
  have hv : v.rest = b ++ c :: u := hp.rest_mark ht.rest
  rcases hmany.many with rfl | ⟨y, hfirst, hmore⟩
  · exfalso
    obtain ⟨z, hmark, -⟩ := hclosing.seq
    obtain ⟨q, hq⟩ := token_blanks hc.code hb (.inl hp.settled) hv hmark.step
    have := (Lexeme.exactly_eq_some hq.reads).2
    exact hclose (List.head_eq_of_cons_eq this)
  · obtain ⟨M', -, hfirst⟩ := hfirst.part
    obtain ⟨k, ts, hitems, -, hname⟩ := statement_adds hc hb hp.settled hv hfirst
    have hrest : ∃ new, w.items = new ++ y.items := by
      rcases hmore with rfl | hmore
      · exact ⟨[], rfl⟩
      · have hadds : Adds (many (part (.statement false))) 0 := ⟨rfl, rfl⟩
        obtain ⟨new, hnew, -⟩ := hadds.items hmore
        exact ⟨new, hnew⟩
    obtain ⟨new, hnew⟩ := hrest
    have hadds : Adds (closingBrace o) 1 := ⟨rfl, rfl⟩
    obtain ⟨new', hnew', -⟩ := hadds.items hclosing
    have hxs : x.items.reverse = .leaf p :: .node k ts :: (new' ++ new).reverse := by
      simp [hnew', hnew, hitems, hp.items]
    refine ⟨_, by rw [hblock, ht.items], ?_⟩
    have hall : Tree.Every Tree.IsQuoted (.node .statementBlock x.items.reverse) :=
      hquoted _ (by simp [trees, hblock])
    rw [hxs] at hall ⊢
    rw [Tree.prologue_mark hp.kind]
    refine Tree.prologue_node ?_
    by_cases hk : k = .expressionStatement
    · obtain ⟨tok, more, htokens, hkind⟩ := hname hk
      subst hk
      have hnode := (Tree.every_node.1 hall).2 (.node .expressionStatement ts) (by simp)
      exact Tree.stringLiteral?_eq_none (fun t ht => ((Tree.every_node.1 hnode).2 t ht).self) htokens hkind
    · unfold Tree.stringLiteral?
      split
      · rename_i heq
        cases heq
        exact absurd rfl hk
      · rfl

/-! ### Functions -/

/-- The readings of which the reading of a function is made: from `s`, behind `async`, the keyword, the
star, the name, the parameters and the body. -/
structure Form (N : Nat) (o : Bool) (s a b c d e u : Reader) : Prop where
  async : Runs N (opt (keyword "async")) s a
  function : Runs N (keyword "function") a b
  star : c = b ∨ Runs N (mark "*") b c
  name : d = c ∨ Runs N anyName c d
  parameters : Runs N parameters d e
  body : Runs N (body o) e u

theorem functionForm_runs {r : Role} {N : Nat} {s s' : Reader} (h : Runs N (functionForm r) s s') :
    ∃ t o a b c d e u k, s.settle {} = some t ∧ Form N o t.opened a b c d e u ∧
      (Step.finish (.function k)).run u = some s' := by
  obtain ⟨b, h, hshape⟩ := h.seq
  obtain ⟨a, h, hfunction⟩ := h.seq
  obtain ⟨y, h, hasync⟩ := h.seq
  obtain ⟨t, hgap, hopening⟩ := h.seq
  cases hopening.step
  have shape {named unnamed : FunctionKind} {c : Reader} (hstar : c = b ∨ Runs N (mark "*") b c)
      (h : Runs N ((anyName ++ parameters ++ body (r ≠ .exported) ++
            step (.finish (.function (if r = .operand then unnamed else named)))) <|>
          (parameters ++ body true ++ step (.finish (.function unnamed)))) c s') :
      ∃ o d e u k, Form N o t.opened a b c d e u ∧ (Step.finish (.function k)).run u = some s' := by
    rcases h.orElse with h | h
    · obtain ⟨u, h, hend⟩ := h.seq
      obtain ⟨e, h, hbody⟩ := h.seq
      obtain ⟨d, hname, hparameters⟩ := h.seq
      exact ⟨_, d, e, u, _, ⟨hasync, hfunction, hstar, .inr hname, hparameters, hbody⟩, hend.step⟩
    · obtain ⟨u, h, hend⟩ := h.seq
      obtain ⟨e, hparameters, hbody⟩ := h.seq
      exact ⟨_, c, e, u, _, ⟨hasync, hfunction, hstar, .inl rfl, hparameters, hbody⟩, hend.step⟩
  rcases hshape.orElse with hshape | hshape
  · obtain ⟨c, hstar, hshape⟩ := hshape.seq
    obtain ⟨o, d, e, u, k, hform, hend⟩ := shape (.inr hstar) hshape
    exact ⟨t, o, a, b, c, d, e, u, k, hgap.step, hform, hend⟩
  · obtain ⟨o, d, e, u, k, hform, hend⟩ := shape (.inl rfl) hshape
    exact ⟨t, o, a, b, b, d, e, u, k, hgap.step, hform, hend⟩

/-- `s'` has more on top than `s`, and no name is a child of its own there. -/
def Nameless (s s' : Reader) : Prop :=
  ∃ new, s'.items = new ++ s.items ∧ ∀ t ∈ new, t.isLeaf .name = false

theorem Nameless.refl (s : Reader) : Nameless s s := ⟨[], rfl, by simp⟩

theorem Nameless.trans {s t u : Reader} (h : Nameless s t) (h' : Nameless t u) : Nameless s u := by
  obtain ⟨new, hnew, hno⟩ := h
  obtain ⟨new', hnew', hno'⟩ := h'
  exact ⟨new' ++ new, by rw [hnew', hnew, List.append_assoc], List.forall_mem_append.2 ⟨hno', hno⟩⟩

theorem nameless_settle {g : Gap} {s t : Reader} (h : s.settle g = some t) : Nameless s t := by
  obtain ⟨⟨cs, hitems, hcs⟩, -⟩ := notes_settle h
  refine ⟨cs, hitems, ?_⟩
  intro c hc
  obtain ⟨t, rfl, hcomment⟩ := hcs c hc
  cases hk : t.kind <;> simp_all [Tree.isComment, Tree.isLeaf]

theorem nameless_mark {reads : Reads} {N : Nat} {s s' : Reader} (h : Runs N (read .mark reads) s s') :
    Nameless s s' := by
  obtain ⟨t, tok, hsettle, htok⟩ := token_settle h.step
  refine (nameless_settle hsettle).trans ⟨[.leaf tok], htok.items, ?_⟩
  simp [Tree.isLeaf, htok.kind]

theorem nameless_parameters {N : Nat} {s s' : Reader} (h : Runs N parameters s s') : Nameless s s' := by
  obtain ⟨t, u, ps, hsettle, -, hitems, -⟩ := parameters_runs h
  exact (nameless_settle hsettle).trans ⟨[.node .parameters ps], hitems, by simp [Tree.isLeaf]⟩

theorem nameless_body {o : Bool} {N : Nat} {s s' : Reader} (h : Runs N (body o) s s') :
    Nameless s s' := by
  obtain ⟨M, -, t, v, w, x, hsettle, -, -, -, hblock⟩ := block_runs h
  exact (nameless_settle hsettle).trans ⟨[_], hblock, by simp [Tree.isLeaf]⟩

/-- The text begins as a stub for the function of the given name does: behind its brace and blanks, code
goes on with a foreign character. -/
def StubHead (name t : Text) : Prop :=
  ∃ b c u, t = "async".toList ++ ' ' :: ("function".toList ++ ' ' ::
      (name ++ '(' :: ')' :: ' ' :: '\x7b' :: (b ++ c :: u))) ∧
    (∀ d ∈ b, isGap d = true) ∧ Foreign c ∧ c ≠ '\x7d'

section Form

variable {N : Nat} {o : Bool} {s a b c d e u : Reader}

/-- The first token of a function stands where its reading begins. -/
theorem Form.first (h : Form N o s a b c d e u) (hs : s.items = []) (hsettled : s.settled = true) :
    ∃ tok new, u.items = new ++ [.leaf tok] ∧ tok.start = s.offset := by
  have hadds {r : R} {k : Int} (hr : Adds r k) {x y : Reader} (hrun : Runs N r x y) :
      [] ++ x.items <:+ y.items := by
    obtain ⟨new, hnew, -⟩ := hr.items hrun
    exact ⟨new, hnew.symm⟩
  have hcd : c.items <:+ d.items := by
    rcases h.name with rfl | hname
    · exact List.suffix_refl _
    · exact hadds (k := 1) ⟨rfl, rfl⟩ hname
  have hbc : b.items <:+ c.items := by
    rcases h.star with rfl | hstar
    · exact List.suffix_refl _
    · exact hadds (k := 1) ⟨rfl, rfl⟩ hstar
  have hbu : b.items <:+ u.items :=
    hbc.trans (hcd.trans ((hadds (k := 1) ⟨rfl, rfl⟩ h.parameters).trans (hadds (k := 1) ⟨rfl, rfl⟩ h.body)))
  have hab : a.items <:+ b.items := hadds (k := 1) ⟨rfl, rfl⟩ h.function
  have first {x : Reader} {tok : Token} {n : Nat} {k : Leaf} {reads : Reads} {t : Text}
      (htok : ReadsOne k reads n t s x tok) (hn : n = 0) (hx : x.items <:+ u.items) :
      ∃ tok new, u.items = new ++ [.leaf tok] ∧ tok.start = s.offset := by
    obtain ⟨new, hnew⟩ := hx
    rw [htok.items, hs] at hnew
    exact ⟨tok, new, hnew.symm, by rw [htok.start, hn]; rfl⟩
  rcases h.async.opt with hasync | rfl
  · obtain ⟨tok, htok⟩ := token_settled hsettled hasync.step
    exact first htok rfl (hab.trans hbu)
  · obtain ⟨tok, htok⟩ := token_settled hsettled h.function.step
    exact first htok rfl hbu

/-- The name of a function is the name that was read behind the keyword. -/
theorem Form.name_eq (h : Form N o s a b c d e u) (hs : s.items = []) {k : FunctionKind} {name : Text}
    (hname : (Tree.node (.function k) u.items.reverse).functionName? = some name) :
    Runs N anyName c d ∧ ∃ t tok, c.settle {} = some t ∧
      ReadsOne .name Lexeme.name 0 t.rest t d tok ∧ tok.text = name := by
  have hsa : Nameless s a := by
    rcases h.async.opt with hasync | rfl
    · exact nameless_mark hasync
    · exact .refl _
  have hbc : Nameless b c := by
    rcases h.star with rfl | hstar
    · exact .refl _
    · exact nameless_mark hstar
  obtain ⟨before, hbefore, hnobefore⟩ := (hsa.trans (nameless_mark h.function)).trans hbc
  obtain ⟨after, hafter, hnoafter⟩ := (nameless_parameters h.parameters).trans (nameless_body h.body)
  rw [hs, List.append_nil] at hbefore
  have hfind : ((u.items.reverse.find? (·.isLeaf .name)).map Tree.text) = some name := by
    rw [Tree.functionName?] at hname
    split_ifs at hname
    exact hname
  rcases h.name with rfl | hrun
  · exfalso
    have hnone : u.items.reverse.find? (·.isLeaf .name) = none := by
      rw [List.find?_eq_none]
      intro t ht
      rw [List.mem_reverse, hafter, hbefore, List.mem_append] at ht
      rcases ht with ht | ht
      · simp [hnoafter t ht]
      · simp [hnobefore t ht]
    rw [hnone] at hfind
    cases hfind
  · obtain ⟨t, tok, hsettle, htok⟩ := token_settle hrun.step
    refine ⟨hrun, t, tok, hsettle, htok, ?_⟩
    obtain ⟨cs, hcs, hnocs⟩ := nameless_settle hsettle
    have hreverse : u.items.reverse =
        before.reverse ++ cs.reverse ++ .leaf tok :: after.reverse := by
      simp [hafter, htok.items, hcs, hbefore]
    have hsome : u.items.reverse.find? (·.isLeaf .name) = some (.leaf tok) := by
      rw [hreverse, List.find?_append, List.find?_eq_none.2]
      · simp [Tree.isLeaf, htok.kind]
      · intro t ht
        rw [List.mem_append, List.mem_reverse, List.mem_reverse] at ht
        rcases ht with ht | ht
        · simp [hnobefore t ht]
        · simp [hnocs t ht]
    rw [hsome] at hfind
    simpa [Tree.text, Tree.tokens] using hfind

/-- A function whose text begins as a stub does has no string at the start of its body. -/
theorem Form.prologue (h : Form N o s a b c d e u) (hs : s.items = []) (hsettled : s.settled = true)
    {k : FunctionKind} {name : Text}
    (hname : (Tree.node (.function k) u.items.reverse).functionName? = some name)
    (hstub : StubHead name s.rest) (hquoted : u.Every Tree.IsQuoted) :
    Tree.prologue (Tree.node (.function k) u.items.reverse).functionBody = [] := by
  obtain ⟨b₁, c₁, t₁, hrest, hb₁, hc₁, hclose⟩ := hstub
  obtain ⟨-, t, tok, hsettle, htok, rfl⟩ := h.name_eq hs hname
  obtain ⟨n, ns, htext, hn⟩ := Lexeme.startsName_of_name htok.reads
  have hblank : ∀ d ∈ [' '], isGap d = true := List.forall_mem_singleton.2 rfl
  have hasync : ∃ p, ReadsOne .mark (Lexeme.word "async") 0 s.rest s a p := by
    rcases h.async.opt with hasync | rfl
    · exact token_settled hsettled hasync.step
    · obtain ⟨p, hp⟩ := token_settled hsettled h.function.step
      have hword := (Lexeme.word_eq_some hp.reads).2
      rw [hrest] at hword
      cases hword
  obtain ⟨p, hp⟩ := hasync
  obtain ⟨q, hq⟩ := token_blanks (c := 'f') rfl hblank (.inl hp.settled) (hp.rest_word hrest) h.function.step
  have hb := hq.rest_word rfl
  rw [htext, List.cons_append] at hb
  have hncode := Lexeme.isCodeStart_of_startsName hn
  obtain rfl : c = b := by
    rcases h.star with rfl | hstar
    · rfl
    · obtain ⟨x, hx⟩ := token_blanks hncode hblank (.inl hq.settled) hb hstar.step
      have hstar := (Lexeme.exactly_eq_some hx.reads).2
      rw [List.head_eq_of_cons_eq hstar] at hn
      cases hn
  have ht := settle_blanks hncode hblank (.inl hq.settled) hb hsettle
  have hd : d.rest = [] ++ '(' :: ')' :: (' ' :: '\x7b' :: (b₁ ++ c₁ :: t₁)) := by
    have hname := (Lexeme.takes_name htok.reads).2
    rw [ht.rest, htext, List.cons_append, List.cons.injEq] at hname
    exact (List.append_cancel_left hname.2).symm
  obtain ⟨v, w, ps, hgap, harguments, he, herest, hesettled⟩ := parameters_runs h.parameters
  have hv := settle_blanks (c := '(') (b := []) rfl (by simp) (.inr rfl) hd hgap
  obtain ⟨hw, hwsettled⟩ := arguments_empty (by simp) (.inr rfl) hd harguments
  have hbody : e.rest = [' '] ++ '\x7b' :: (b₁ ++ c₁ :: t₁) := herest.trans hw
  obtain ⟨bs, hu, hbs⟩ :=
    block_prologue hc₁ hclose hblank hb₁ (.inl (hesettled.trans hwsettled)) hbody h.body hquoted
  have hitems : u.items.reverse =
      [.leaf p, .leaf q, .leaf tok, .node .parameters ps, .node .statementBlock bs] := by
    simp [hu, he, hv.items, htok.items, ht.items, hq.items, hp.items, hs]
  rw [hitems]
  exact hbs

end Form

end Grammar
end ServerSplit.Js
