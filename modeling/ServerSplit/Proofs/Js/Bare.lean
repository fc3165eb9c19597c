import ServerSplit.Proofs.Js.Yields

/-! What a statement comes to where its first characters are known. At a quote nothing but a string fits among
the operands, and nothing but an expression among the statements; at the word `function` only a function does;
and at a semicolon nothing goes on with an expression. -/
namespace ServerSplit.Js.Grammar

open Rule Reader

/-! ### Where neither a name nor a number stands -/

/-- The characters of the punctuation with which an operand or a statement may begin, quotes apart. -/
def openMarks : Text := ";\x7b@#.([`/<!~+-".toList

/-- The text begins with no operand and no statement, but perhaps with a string. -/
def Bare (t : Text) : Prop :=
  ∀ c, t.head? = some c → Lexeme.startsName c = false ∧ c.isDigit = false ∧ openMarks.contains c = false

theorem eq_none_of_never {reads : Reads} {t : Text} (htakes : Takes reads)
    (h : ∀ c, t.head? = some c → Never c reads) : reads t = none := by
  cases t with
  | nil =>
    cases hr : reads [] with
    | none => rfl
    | some p =>
      obtain ⟨hne, happend⟩ := htakes hr
      exact (hne (List.append_eq_nil_iff.1 happend.symm).1).elim
  | cons c t => exact h c rfl _ rfl

namespace Bare

variable {b t : Text} (ht : Bare t)
include ht

theorem head_ne {s : Text} (hs : s.head?.any openMarks.contains = true) {c : Char} (hc : t.head? = some c) :
    s.head? ≠ some c := by
  intro h
  rw [h, Option.any_some, (ht c hc).2.2] at hs
  cases hs

theorem mark {s : String} (hs : s.toList.head?.any openMarks.contains = true) : Stuck b t (mark s : R) := by
  have hne : s.toList ≠ [] := by
    intro hnil
    rw [hnil] at hs
    cases hs
  refine stuck_read (eq_none_of_never (Lexeme.takes_exactly hne) fun c hc => ?_)
  exact Lexeme.never_exactly hne (ht.head_ne hs hc)

theorem operator {s : String} (hs : s.toList.head?.any openMarks.contains = true) : Stuck b t (operator s : R) :=
  stuck_read (eq_none_of_never (Lexeme.takes_operator _) fun _ hc => Lexeme.never_operator (ht.head_ne hs hc))

theorem name_eq : Lexeme.name t = none :=
  eq_none_of_never Lexeme.takes_name fun c hc => Lexeme.never_name (ht c hc).1

theorem word (k : Leaf) (s : String) : Stuck b t (read k (Lexeme.word s) : R) :=
  stuck_read (by simp [Lexeme.word, ht.name_eq])

theorem keyword (s : String) : Stuck b t (keyword s : R) := ht.word .mark s

theorem nameExcept (k : Leaf) (words : List String) : Stuck b t (read k (Lexeme.nameExcept words) : R) :=
  stuck_read (by simp [Lexeme.nameExcept, ht.name_eq])

theorem number : Stuck b t number := by
  refine stuck_read (eq_none_of_never Lexeme.takes_number fun c hc => Lexeme.never_number (ht c hc).2.1 ?_)
  rintro rfl
  cases (ht _ hc).2.2

theorem privateName : Stuck b t privateName := by
  refine stuck_read (eq_none_of_never Lexeme.takes_privateName fun c hc => Lexeme.never_privateName ?_)
  rintro rfl
  cases (ht _ hc).2.2

end Bare

/-- All operands but strings are stuck at a bare text. -/
theorem operand_yields {b t : Text} (ht : Bare t) {x : Ctx} {k : Nat} {s : Reader} {o : Option Reader}
    (hs : s.Ready b t) (h : Yields k string s o) : Yields (k + 25) (operand x) s o := by
  have stuck {r : R} (hr : Stuck b t r) : r = part .string ∨ Yields (k + 1) r s none := .inr (hr.yields hs)
  have hnode {kind : Kind} {a b' : R} (ha : Stuck b t a) : Stuck b t (node kind (a ++ b')) := .node ha.seq
  refine .seq (.step (hs.settle {})) ?_
  refine .mono (.anyOf (r := part .string) (.tail _ (.tail _ (.head _))) (.part h) ?_)
    (by simp only [List.length_cons, List.length_nil]; omega)
  simp only [List.forall_mem_cons]
  refine ⟨?_, ?_, ?_, ?_, ?_, ?_, ?_, ?_, ?_, ?_, ?_, ?_, ?_, ?_, ?_, ?_, ?_, ?_, ?_, ?_, by simp⟩
  · exact stuck (ht.nameExcept _ _).seq
  · exact stuck (stuck_anyOf (by simp) (List.forall_mem_map.2 fun w _ => ht.word _ w))
  · exact .inl trivial
  · exact stuck ht.number
  · exact stuck (Stuck.seq (.node (ht.mark rfl).seq.seq))
  · exact stuck (.part (.node (ht.mark rfl).seq.seq))
  · exact stuck (.part (.node (ht.mark rfl).seq.seq))
  · exact stuck (.part (.node (ht.mark rfl).seq.seq))
  · exact stuck (.node (ht.mark rfl).seq.seq.seq.seq.seq)
  · exact stuck (.present (ht.keyword _))
  · exact stuck (.present (ht.keyword _))
  · exact stuck (.present (.orElse (ht.keyword _) (ht.mark rfl)))
  · exact stuck (.present (ht.keyword _))
  · exact stuck (.present (ht.keyword _))
  · refine stuck (hnode (stuck_anyOf (by simp [unaryOperators]) ?_))
    refine List.forall_mem_append.2 ⟨List.forall_mem_map.2 fun w hw => ht.operator ?_,
      List.forall_mem_map.2 fun w _ => ht.keyword w⟩
    fin_cases hw <;> rfl
  · exact stuck (hnode (.orElse (ht.operator rfl) (ht.operator rfl)))
  · exact stuck (hnode (ht.keyword _))
  · exact stuck (hnode (ht.keyword _))
  · exact stuck (.present (ht.mark rfl))
  · exact stuck ht.privateName.seq

/-! ### Statements -/

/-- The words with which a statement may begin, the word `function` apart. -/
def leadWords : List String :=
  ["if", "for", "return", "switch", "do", "try", "throw", "while", "with", "break", "continue", "debugger", "var",
    "const", "let", "async", "export", "class", "import"]

/-- The text begins with no statement, but perhaps with a function, a name or an expression. -/
structure Unled (b t : Text) : Prop where
  mark : ∀ s ∈ [";", "\x7b", "@"], Stuck b t (mark s : R)
  word : ∀ s ∈ leadWords, Stuck b t (keyword s : R)

theorem Bare.unled {b t : Text} (ht : Bare t) : Unled b t where
  mark s hs := by
    refine ht.mark ?_
    fin_cases hs <;> rfl
  word s _ := ht.keyword s

/-- A function at the start of a statement. -/
def functionStatement : R :=
  present (startsFunction ⟨true, true⟩) ++ declarationOr (part (.functionForm .statement)) statementTail

/-- What begins a statement and no expression statement. -/
def statementStarts : List R :=
  (statementWords ++ []).map keyword ++ [mark "\x7b", keyword "class", mark "@", startsFunction ⟨true, true⟩,
    startsVariablesNotValue, keyword "export" ++ gap ⟨true, true⟩ ++ operator "*"]

theorem startsFunction_mem : startsFunction ⟨true, true⟩ ∈ statementStarts :=
  List.mem_append_right _ (.tail _ (.tail _ (.tail _ (.head _))))

/-- A statement that begins with an expression or a label. -/
def plainStatement : R := absent (anyOf statementStarts) ++ (labeledStatement false <|> expressionStatement)

/-- The alternatives of a statement but for functions and plain ones. -/
def ledStatements : List R :=
  [empties, present (mark "\x7b") ++ bracesStatement] ++
    keywordStatements.map (fun p => present (keyword p.1) ++ p.2) ++
    [present startsVariablesNotValue ++ declaredVariables, exportStatement,
      present (keyword "class" <|> mark "@") ++ declarationOr (part (.classForm .statement)) statementTail,
      present (keyword "import") ++ absent importExpression ++ importStatement]

/-- All alternatives of a statement. -/
def statementForms : List R :=
  ledStatements.take 15 ++ [functionStatement] ++ ledStatements.drop 15 ++ [plainStatement]

theorem functionStatement_mem : functionStatement ∈ statementForms :=
  List.mem_append_left _ (List.mem_append_left _ (List.mem_append_right _ (List.mem_singleton_self _)))

theorem plainStatement_mem : plainStatement ∈ statementForms :=
  List.mem_append_right _ (List.mem_singleton_self _)

theorem statementForms_cases {r : R} (hr : r ∈ statementForms) :
    r ∈ ledStatements ∨ r = functionStatement ∨ r = plainStatement := by
  simp only [statementForms, List.mem_append, List.mem_singleton] at hr
  rcases hr with ((hr | hr) | hr) | hr
  · exact .inl (List.mem_of_mem_take hr)
  · exact .inr (.inl hr)
  · exact .inl (List.mem_of_mem_drop hr)
  · exact .inr (.inr hr)

namespace Unled

variable {b t : Text} (h : Unled b t)
include h

theorem startsVariables (g : Gap) (words : List String) : Stuck b t (Grammar.startsVariables g words) := by
  refine stuck_anyOf (by simp) ?_
  simp only [List.forall_mem_cons]
  exact ⟨h.word _ (by simp [leadWords]), h.word _ (by simp [leadWords]),
    (h.word _ (by simp [leadWords])).seq.seq, by simp⟩

theorem stuck {r : R} (hr : r ∈ ledStatements) : Stuck b t r := by
  simp only [ledStatements, List.mem_append, List.mem_map] at hr
  rcases hr with (hr | ⟨p, hp, rfl⟩) | hr
  · revert r
    simp only [List.forall_mem_cons]
    exact ⟨.node (h.mark _ (by simp)), .present (h.mark _ (by simp)), by simp⟩
  · refine .present (h.word _ ?_)
    fin_cases hp <;> simp [leadWords]
  · revert r
    simp only [List.forall_mem_cons]
    refine ⟨.present (h.startsVariables _ _), ?_, ?_, ?_, by simp⟩
    · refine stuck_anyOf (by simp) ?_
      simp only [List.forall_mem_cons]
      exact ⟨.node (h.word _ (by simp [leadWords])).seq.seq, .present (h.mark _ (by simp)), by simp⟩
    · exact .present (.orElse (h.word _ (by simp [leadWords])) (h.mark _ (by simp)))
    · exact Stuck.seq (.present (h.word _ (by simp [leadWords])))

end Unled

/-- Where the text begins with neither a name nor a number, a statement is an expression. -/
theorem statement_yields {b t : Text} (ht : Bare t) {k : Nat} {s s' : Reader} {o : Option Reader}
    (hgap : s.settle {} = some s') (hs : s'.Ready b t) (h : Yields k expressionStatement s' o) :
    Yields (k + 40) (part (.statement false)) s o := by
  have hfunction : Stuck b t (startsFunction ⟨true, true⟩) := .orElse (ht.keyword _) (ht.keyword _).seq.seq
  have hstart : Stuck b t (anyOf statementStarts) := by
    refine stuck_anyOf (by simp [statementStarts]) ?_
    refine List.forall_mem_append.2 ⟨List.forall_mem_map.2 fun w _ => ht.keyword w, ?_⟩
    simp only [List.forall_mem_cons]
    exact ⟨ht.mark rfl, ht.keyword _, ht.mark rfl, hfunction, ht.unled.startsVariables _ _,
      (ht.keyword _).seq.seq, by simp⟩
  have hlabel : Stuck b t (labeledStatement false) := .node (ht.nameExcept _ _).seq.seq.seq
  have hplain : Yields (k + 2) plainStatement s' o :=
    .seq (.absent (hstart.yields hs)) (.right (hlabel.yields hs) h)
  refine .part (.seq (.step hgap) ?_)
  refine .anyOf plainStatement_mem (hplain.mono (by omega)) fun r hr => ?_
  rcases statementForms_cases hr with hr | rfl | rfl
  · exact .inr ((ht.unled.stuck hr).yields hs)
  · exact .inr ((Stuck.present hfunction).yields hs)
  · exact .inl rfl

/-! ### Where an expression ends -/

section Other

-- The text begins with another character than the token.
variable {b u : Text} {c : Char}

theorem stuck_mark {m : String} (h : m.toList.head?.any (· ≠ c) = true) : Stuck b (c :: u) (mark m : R) := by
  refine stuck_read (Lexeme.never_exactly ?_ ?_ _ rfl)
  · intro hnil
    rw [hnil] at h
    cases h
  · intro hhead
    rw [hhead] at h
    simp at h

theorem stuck_operator {m : String} (h : m.toList.head? ≠ some c) : Stuck b (c :: u) (operator m : R) :=
  stuck_read (Lexeme.never_operator h _ rfl)

theorem stuck_keyword {m : String} (h : m.toList.head? ≠ some c) : Stuck b (c :: u) (keyword m : R) :=
  stuck_read (Lexeme.never_word h _ rfl)

/-- Nothing accesses or calls a value, if the text begins with no such mark. -/
theorem access_stuck (hc : ".[?(\x60".toList.contains c = false) {x : Ctx} (hx : x.noCall = false) :
    ∀ r ∈ access x, Stuck b (c :: u) r := by
  have hmark {m : Char} {s : String} (hs : s.toList = [m]) (hm : ".[?(\x60".toList.contains m = true) :
      Stuck b (c :: u) (mark s : R) := by
    refine stuck_mark ?_
    rw [hs]
    refine decide_eq_true fun h => ?_
    rw [h, hc] at hm
    cases hm
  have hdot : Stuck b (c :: u) (memberAccess (mark ".")) := .wrap (hmark rfl rfl).seq
  have hindex : Stuck b (c :: u) (wrap .subscript 1 index) := .wrap (hmark rfl rfl).seq.seq
  have hchain : Stuck b (c :: u) optionalChain := by
    refine stuck_read ?_
    unfold Lexeme.chain
    split
    · rename_i h
      cases h
      cases hc
    · rfl
  have htemplate : Stuck b (c :: u) (part .template) := .part (.node (hmark rfl rfl).seq.seq)
  have harguments : Stuck b (c :: u) (part .arguments) := .part (.node (hmark rfl rfl).seq.seq)
  simp only [access, hx, Bool.false_eq_true, if_false, List.cons_append, List.nil_append, List.forall_mem_cons]
  exact ⟨stays_empty.seq hdot, stays_empty.seq hindex, hchain.present, (stays_last _).seq (.wrap htemplate),
    .wrap harguments, by simp⟩

end Other

/-- The characters that end an expression. -/
def isCloser (c : Char) : Bool := ";,)]\x7d".toList.contains c

section Closer

-- Every token that could go on with an expression begins with another character.
variable {b u : Text} {c : Char} (hc : isCloser c = true)
include hc

theorem closer_operator {m : String} (h : m.toList.head?.any isCloser = false) : Stuck b (c :: u) (operator m : R) := by
  refine stuck_operator fun hhead => ?_
  rw [hhead, Option.any_some, hc] at h
  cases h

theorem closer_keyword {m : String} (h : m.toList.head?.any isCloser = false) : Stuck b (c :: u) (keyword m : R) := by
  refine stuck_keyword fun hhead => ?_
  rw [hhead, Option.any_some, hc] at h
  cases h

theorem closer_cases : c = ';' ∨ c = ',' ∨ c = ')' ∨ c = ']' ∨ c = '\x7d' := by
  simpa [isCloser] using hc

theorem closer_code : isCodeStart c = true := by
  rcases closer_cases hc with rfl | rfl | rfl | rfl | rfl <;> decide

theorem closer_access {x : Ctx} (hx : x.noCall = false) : ∀ r ∈ access x, Stuck b (c :: u) r := by
  refine access_stuck ?_ hx
  rcases closer_cases hc with rfl | rfl | rfl | rfl | rfl <;> rfl

theorem closer_question (semi : Bool) : Stuck [] (c :: u) (step (.question semi)) := by
  intro N s s' hs hrun
  have hquestion := hrun.step
  simp only [Step.run, Reader.question, hs.blank, hs.rest] at hquestion
  rcases closer_cases hc with rfl | rfl | rfl | rfl | rfl <;> cases semi <;> cases hquestion

variable {x : Ctx} (hx : x.inHead = false) (hcall : x.noCall = false)

include hx in
theorem closer_binary (level : Nat) : ∀ r ∈ binary x level, Stuck b (c :: u) r := by
  intro r hr
  rcases List.mem_append.1 hr with hr | hr
  · obtain ⟨⟨here, next, ops⟩, hops, rfl⟩ := List.mem_map.1 hr
    have hlevels : ∀ l ∈ binaryLevels, l.2.2 ≠ [] ∧ ∀ m ∈ l.2.2, m.toList.head?.any isCloser = false := by
      decide
    have hops := hlevels _ (List.mem_of_mem_filter hops)
    exact (stays_last _).seq (.wrap (Stuck.seq (stuck_anyOf (by simpa using hops.1)
      (List.forall_mem_map.2 fun m hm => closer_operator hc (hops.2 m hm)))))
  · have hword {m : String} (hm : m.toList.head?.any isCloser = false) {level : Nat} {a : R} :
        Stuck b (c :: u) (behind level (wrap .binary 1 (keyword m ++ a))) :=
      (stays_last _).seq (.wrap (closer_keyword hc hm).seq)
    simp only [hx, Bool.false_eq_true, if_false] at hr
    split at hr
    · rcases List.mem_pair.1 hr with rfl | rfl
      · exact hword (by decide)
      · exact hword (by decide)
    · cases hr

include hx hcall in
/-- Nothing goes on with an expression, if it is no array that may be assigned to. -/
theorem continuation_stuck {N level : Nat} {s s' : Reader} (hsettled : s.settled = false) (hblank : s.blank = [])
    (hrest : s.rest = c :: u) : ¬ Runs N (continuation x level) s s' := by
  intro hrun
  have hcode : s.At c := by
    rw [At, hrest]
    rfl
  have ready {g : Gap} {v : Reader} (hg : s.settle g = some v) : v.Ready [] (c :: u) := by
    have hpasses := settle_at (closer_code hc) hcode hg
    refine ⟨settled_of_settle hg, Text.size_eq_zero ?_, hpasses.rest.trans hrest⟩
    rw [hpasses.blank, hblank]
    rfl
  rcases hrun.orElse with hpattern | hrun
  · obtain ⟨v, hv, -⟩ := hpattern.seq
    obtain ⟨w, hw, hpresent⟩ := hv.seq
    obtain ⟨z, hlast, hgap⟩ := hw.seq
    have hz : z = s := by
      have hlast := hlast.step
      simp only [Step.run] at hlast
      split at hlast <;> cases hlast
      rfl
    subst hz
    obtain ⟨-, y, hy⟩ := hpresent.present
    exact closer_operator hc (by decide) N w y (ready hgap.step) hy
  · obtain ⟨v, hv, hform⟩ := hrun.seq
    obtain ⟨w, hw, hgap⟩ := hv.seq
    obtain rfl := hw.absent
    refine stuck_anyOf (by simp) ?_ N v s' (ready hgap.step) hform
    have hassignments : ∀ r ∈ assignments x, Stuck [] (c :: u) r := by
      simp only [assignments, List.forall_mem_cons]
      refine ⟨.present (closer_operator hc (by decide)), ?_, by simp⟩
      refine (stays_last _).seq (.wrap (Stuck.seq (stuck_anyOf (by simp [assignmentOperators]) ?_)))
      refine List.forall_mem_map.2 fun m hm => closer_operator hc ?_
      fin_cases hm <;> decide
    have hupdate : Stuck [] (c :: u) (behind 14 (wrap .update 1 (operator "++" <|> operator "--"))) :=
      (stays_last _).seq (.wrap (.orElse (closer_operator hc (by decide)) (closer_operator hc (by decide))))
    have hternary : Stuck [] (c :: u) (behind 1 (ternary x)) :=
      (stays_last _).seq (.wrap (closer_question hc _).seq.seq.seq)
    have ite {p : Prop} [Decidable p] {rs : List R} (h : ∀ r ∈ rs, Stuck [] (c :: u) r) :
        ∀ r ∈ (if p then rs else []), Stuck [] (c :: u) r := by
      split
      · exact h
      · simp
    simp only [List.cons_append, List.forall_mem_cons, List.forall_mem_append]
    refine ⟨(stays_last _).seq (stuck_anyOf (by simp [access]) (closer_access hc hcall)), ⟨⟨ite hassignments, ?_⟩, ?_⟩,
      closer_binary hc hx level⟩
    · exact ite (List.forall_mem_singleton.2 hupdate)
    · exact ite (List.forall_mem_singleton.2 hternary)

end Closer

end ServerSplit.Js.Grammar
