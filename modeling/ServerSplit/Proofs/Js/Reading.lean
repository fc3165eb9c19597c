import ServerSplit.Js.Grammar
import ServerSplit.Proofs.Js.Token

/-! What a reading keeps. A property that every step of the grammar keeps is kept by the reading of any
rule, however its parts refer to one another; and every step of the grammar that reads a token reads a
head of the text. -/
namespace ServerSplit.Js

namespace Rule
variable {σ : Type} {q : Step → Prop}

/-- All steps of a rule are among `q`, but for those that only look ahead. -/
def Each (q : Step → Prop) : Rule σ → Prop
  | .step a => q a
  | .seq a b | .alt a b => a.Each q ∧ b.Each q
  | .many a => a.Each q
  | .empty | .part _ | .present _ | .absent _ => True

/-- All steps of a rule are among `q`, those that only look ahead as well. -/
def Throughout (q : Step → Prop) : Rule σ → Prop
  | .step a => q a
  | .seq a b | .alt a b => a.Throughout q ∧ b.Throughout q
  | .many a | .present a | .absent a => a.Throughout q
  | .empty | .part _ => True

theorem Throughout.each {r : Rule σ} (h : r.Throughout q) : r.Each q := by
  induction r with
  | empty | part | present | absent => trivial
  | step a => exact h
  | seq a b iha ihb | alt a b iha ihb => exact ⟨iha h.1, ihb h.2⟩
  | many a ih => exact ih h

/-- What the steps of a rule keep, and all parts that are read with less fuel, the rule keeps. -/
theorem run_keeps_of_parts {g : σ → Rule σ} {P : Reader → Prop} {N : Nat}
    (hstep : ∀ a s s', q a → P s → a.run s = some s' → P s')
    (hparts : ∀ m < N, ∀ p s s', P s → run g m (g p) s = some s' → P s')
    {n : Nat} (hn : n ≤ N) {r : Rule σ} {s s' : Reader} (hr : r.Each q) (hs : P s)
    (h : run g n r s = some s') : P s' := by
  induction n generalizing r s s' with
  | zero => cases h
  | succ n ih =>
    replace ih {r : Rule σ} {s s' : Reader} := @ih (Nat.le_of_succ_le hn) r s s'
    cases r with
    | empty => cases h; exact hs
    | step a => exact hstep a s s' hr hs h
    | part p => exact hparts n hn p s s' hs h
    | seq a b =>
      simp only [run] at h
      split at h
      · rename_i t ht
        exact ih hr.2 (ih hr.1 hs ht) h
      · cases h
    | alt a b =>
      simp only [run] at h
      split at h
      · rename_i t ht
        cases h
        exact ih hr.1 hs ht
      · exact ih hr.2 hs h
    | many a =>
      simp only [run] at h
      split at h
      · rename_i t ht
        have hr' : a.Each q := hr
        split at h
        · exact ih (r := .many a) hr (ih hr' hs ht) h
        · cases h; exact ih hr' hs ht
      · cases h; exact hs
    | present a =>
      simp only [run] at h
      split at h
      · cases h; exact hs
      · cases h
    | absent a =>
      simp only [run] at h
      split at h
      · cases h
      · cases h; exact hs

/-- What the steps keep, the rules keep. -/
theorem run_keeps {g : σ → Rule σ} {P : Reader → Prop}
    (hstep : ∀ a s s', q a → P s → a.run s = some s' → P s') (hg : ∀ p, (g p).Each q)
    {n : Nat} {r : Rule σ} {s s' : Reader} (hr : r.Each q) (hs : P s)
    (h : run g n r s = some s') : P s' := by
  induction n using Nat.strongRecOn generalizing r s s' with
  | ind n ih =>
    refine run_keeps_of_parts hstep ?_ (Nat.le_refl n) hr hs h
    intro m hm p t t' ht hp
    exact ih m hm (hg p) ht hp

theorem each_and {q' : Step → Prop} {r : Rule σ} :
    (r.Each fun a => q a ∧ q' a) ↔ r.Each q ∧ r.Each q' := by
  induction r with
  | empty | part | present | absent => exact ⟨fun _ => ⟨trivial, trivial⟩, fun _ => trivial⟩
  | step a => exact Iff.rfl
  | seq a b iha ihb | alt a b iha ihb =>
    simp only [Each, iha, ihb]
    exact and_and_and_comm
  | many a ih => exact ih

theorem Throughout.imp {q' : Step → Prop} (h : ∀ a, q a → q' a) {r : Rule σ} (hr : r.Throughout q) :
    r.Throughout q' := by
  induction r with
  | empty | part => trivial
  | step a => exact h a hr
  | seq a b iha ihb | alt a b iha ihb => exact ⟨iha hr.1, ihb hr.2⟩
  | many a ih | present a ih | absent a ih => exact ih hr

section Throughout

variable {a b : Rule σ} {as bs : List (Rule σ)}

@[simp] theorem throughout_append : (a ++ b).Throughout q ↔ a.Throughout q ∧ b.Throughout q := Iff.rfl

@[simp] theorem throughout_orElse : (a <|> b).Throughout q ↔ a.Throughout q ∧ b.Throughout q := Iff.rfl

@[simp] theorem throughout_empty : (empty : Rule σ).Throughout q := trivial

@[simp] theorem throughout_part {p : σ} : (part p : Rule σ).Throughout q := trivial

@[simp] theorem throughout_present : (present a).Throughout q ↔ a.Throughout q := Iff.rfl

@[simp] theorem throughout_absent : (absent a).Throughout q ↔ a.Throughout q := Iff.rfl

@[simp] theorem throughout_step {a : Step} : (step a : Rule σ).Throughout q ↔ q a := Iff.rfl

@[simp] theorem throughout_many : (many a).Throughout q ↔ a.Throughout q := Iff.rfl

@[simp] theorem throughout_opt : (opt a).Throughout q ↔ a.Throughout q := by simp [opt, Throughout]

@[simp] theorem throughout_optThen : (optThen a b).Throughout q ↔ a.Throughout q ∧ b.Throughout q := by
  simp only [optThen, throughout_orElse, throughout_append, throughout_present, throughout_absent]
  exact ⟨fun h => h.1.imp_left And.left, fun h => ⟨⟨⟨h.1, h.1⟩, h.2⟩, h.1⟩⟩

theorem throughout_anyOf : (anyOf as).Throughout q ↔ ∀ a ∈ as, a.Throughout q := by
  fun_induction anyOf as with
  | case1 => simp
  | case2 a => simp
  | case3 a as hne ih =>
    rw [List.forall_mem_cons, ← ih]
    exact Iff.rfl

@[simp] theorem throughout_anyOf_nil : (anyOf [] : Rule σ).Throughout q := trivial

@[simp] theorem throughout_anyOf_cons : (anyOf (a :: as)).Throughout q ↔ a.Throughout q ∧ (anyOf as).Throughout q := by
  simp only [throughout_anyOf, List.forall_mem_cons]

@[simp] theorem throughout_anyOf_append :
    (anyOf (as ++ bs)).Throughout q ↔ (anyOf as).Throughout q ∧ (anyOf bs).Throughout q := by
  simp only [throughout_anyOf, List.forall_mem_append]

@[simp] theorem throughout_anyOf_map {α : Type} {f : α → Rule σ} {xs : List α} :
    (anyOf (xs.map f)).Throughout q ↔ ∀ x ∈ xs, (f x).Throughout q := by
  simp only [throughout_anyOf, List.forall_mem_map]

@[simp] theorem throughout_ite {c : Prop} [Decidable c] :
    (if c then a else b).Throughout q ↔ (c → a.Throughout q) ∧ (¬ c → b.Throughout q) := by
  split <;> simp_all

@[simp] theorem throughout_anyOf_ite {c : Prop} [Decidable c] :
    (anyOf (if c then as else bs)).Throughout q ↔
      (c → (anyOf as).Throughout q) ∧ (¬ c → (anyOf bs).Throughout q) := by
  split <;> simp_all

@[simp] theorem throughout_separated {sep : Rule σ} :
    (separated sep a).Throughout q ↔ a.Throughout q ∧ sep.Throughout q := by
  simp only [separated, throughout_append, throughout_opt, throughout_many]
  exact ⟨fun h => ⟨h.1, h.2.1⟩, fun h => ⟨h.1, h.2, h.1⟩⟩

end Throughout

end Rule

/-- The step reads nothing or a head of the text. -/
def Step.ReadsHead : Step → Prop
  | .token _ reads | .glued _ reads => Takes reads
  | _ => True

namespace Rule
variable {σ : Type}

/-- All tokens that a rule reads are heads of the text, also where it only looks ahead. -/
abbrev ReadsHeads (r : Rule σ) : Prop := r.Throughout Step.ReadsHead

@[simp] theorem readsHeads_read {k : Leaf} {reads : Reads} :
    (read k reads : Rule σ).ReadsHeads ↔ Takes reads := Iff.rfl

@[simp] theorem readsHeads_glued {k : Leaf} {reads : Reads} :
    (glued k reads : Rule σ).ReadsHeads ↔ Takes reads := Iff.rfl

@[simp] theorem readsHeads_mark {s : String} (h : s.toList ≠ []) : (mark s : Rule σ).ReadsHeads :=
  Lexeme.takes_exactly h

@[simp] theorem readsHeads_keyword {s : String} : (keyword s : Rule σ).ReadsHeads :=
  Lexeme.takes_word s

@[simp] theorem readsHeads_operator {s : String} : (operator s : Rule σ).ReadsHeads :=
  Lexeme.takes_operator _

@[simp] theorem readsHeads_anyName : (anyName : Rule σ).ReadsHeads := Lexeme.takes_name

@[simp] theorem readsHeads_gap {g : Gap} : (gap g : Rule σ).ReadsHeads := trivial

@[simp] theorem readsHeads_node {k : Kind} {a : Rule σ} :
    (node k a).ReadsHeads ↔ a.ReadsHeads := by
  simp [ReadsHeads, node, Step.ReadsHead, gap]

@[simp] theorem readsHeads_wrap {k : Kind} {n : Nat} {a : Rule σ} :
    (wrap k n a).ReadsHeads ↔ a.ReadsHeads := by
  simp [ReadsHeads, wrap, Step.ReadsHead]

@[simp] theorem readsHeads_recast {r : Recast} : (recast r : Rule σ).ReadsHeads := trivial

@[simp] theorem readsHeads_last {p : Tree → Bool} : (last p : Rule σ).ReadsHeads := trivial

end Rule

/-- The readers that the grammar has for tokens of a kind. -/
inductive Leaf.ReadBy : Leaf → Reads → Prop
  | exactly {s : Text} (h : s ≠ []) : ReadBy .mark (Lexeme.exactly s)
  | operator (s : Text) : ReadBy .mark (Lexeme.operator s)
  | keyword (s : String) : ReadBy .mark (Lexeme.word s)
  | staticGet : ReadBy .mark Lexeme.staticGet
  | optionalChain : ReadBy .optionalChain Lexeme.chain
  | constant (s : String) : ReadBy .constant (Lexeme.word s)
  | word (s : String) : ReadBy .name (Lexeme.word s)
  | name : ReadBy .name Lexeme.name
  | nameExcept (words : List String) : ReadBy .name (Lexeme.nameExcept words)
  | markupName : ReadBy .name Lexeme.markupName
  | privateName : ReadBy .privateName Lexeme.privateName
  | number : ReadBy .number Lexeme.number
  | digits : ReadBy .number (Lexeme.run Char.isDigit)
  | stringFragment (quote : Char) : ReadBy .stringFragment (Lexeme.stringFragment quote)
  | attributeFragment (quote : Char) : ReadBy .stringFragment (Lexeme.attributeFragment quote)
  | templateText : ReadBy .stringFragment Lexeme.templateText
  | escapeSequence : ReadBy .escapeSequence Lexeme.escapeSequence
  | entity : ReadBy .entity Lexeme.entity
  | regexPattern : ReadBy .regexPattern Lexeme.regexPattern
  | regexFlags : ReadBy .regexFlags Lexeme.regexFlags
  | markupText : ReadBy .markupText Lexeme.markupText
  | content : ReadBy .markupComment Comment.readContent?
  | hashBang : ReadBy .hashBang Lexeme.hashBang

open Lexeme in
theorem Leaf.ReadBy.takes {k : Leaf} {reads : Reads} (h : k.ReadBy reads) : Takes reads := by
  cases h with
  | exactly h => exact takes_exactly h
  | operator s => exact takes_operator s
  | keyword s | constant s | word s => exact takes_word s
  | staticGet => exact takes_staticGet
  | optionalChain => exact takes_chain
  | name => exact takes_name
  | nameExcept words => exact takes_nameExcept words
  | markupName => exact takes_markupName
  | privateName => exact takes_privateName
  | number => exact takes_number
  | digits => exact takes_run _
  | stringFragment quote => exact takes_stringFragment quote
  | attributeFragment quote => exact takes_attributeFragment quote
  | templateText => exact takes_templateText
  | escapeSequence => exact takes_escapeSequence
  | entity => exact takes_entity
  | regexPattern => exact takes_regexPattern
  | regexFlags => exact takes_regexFlags
  | markupText => exact takes_markupText
  | content => exact Comment.takes_readContent
  | hashBang => exact takes_hashBang

/-- The step reads nothing or one of the tokens that the grammar has. -/
def Step.Lexical : Step → Prop
  | .token k reads | .glued k reads => k.ReadBy reads
  | _ => True

theorem Step.Lexical.readsHead {a : Step} (h : a.Lexical) : a.ReadsHead := by
  cases a with
  | token k reads | glued k reads => exact Leaf.ReadBy.takes h
  | _ => trivial

namespace Rule
variable {σ : Type}

/-- All tokens that a rule reads are among those of the grammar, also where it only looks ahead. -/
abbrev IsLexical (r : Rule σ) : Prop := r.Throughout Step.Lexical

@[simp] theorem isLexical_read {k : Leaf} {reads : Reads} :
    (read k reads : Rule σ).IsLexical ↔ k.ReadBy reads := Iff.rfl

@[simp] theorem isLexical_glued {k : Leaf} {reads : Reads} :
    (glued k reads : Rule σ).IsLexical ↔ k.ReadBy reads := Iff.rfl

@[simp] theorem isLexical_mark {s : String} (h : s.toList ≠ []) : (mark s : Rule σ).IsLexical :=
  .exactly h

@[simp] theorem isLexical_keyword {s : String} : (keyword s : Rule σ).IsLexical := .keyword s

@[simp] theorem isLexical_operator {s : String} : (operator s : Rule σ).IsLexical := .operator _

@[simp] theorem isLexical_anyName : (anyName : Rule σ).IsLexical := .name

@[simp] theorem isLexical_gap {g : Gap} : (gap g : Rule σ).IsLexical := trivial

@[simp] theorem isLexical_node {k : Kind} {a : Rule σ} : (node k a).IsLexical ↔ a.IsLexical := by
  simp [IsLexical, node, Step.Lexical, gap]

@[simp] theorem isLexical_wrap {k : Kind} {n : Nat} {a : Rule σ} :
    (wrap k n a).IsLexical ↔ a.IsLexical := by
  simp [IsLexical, wrap, Step.Lexical]

@[simp] theorem isLexical_recast {r : Recast} : (recast r : Rule σ).IsLexical := trivial

@[simp] theorem isLexical_last {p : Tree → Bool} : (last p : Rule σ).IsLexical := trivial

end Rule

namespace Grammar
open Rule Lexeme

attribute [local simp] Step.Lexical Leaf.ReadBy.exactly Leaf.ReadBy.staticGet
  Leaf.ReadBy.optionalChain Leaf.ReadBy.constant Leaf.ReadBy.word Leaf.ReadBy.nameExcept
  Leaf.ReadBy.markupName Leaf.ReadBy.privateName Leaf.ReadBy.number Leaf.ReadBy.digits Leaf.ReadBy.stringFragment
  Leaf.ReadBy.attributeFragment Leaf.ReadBy.templateText Leaf.ReadBy.escapeSequence Leaf.ReadBy.entity
  Leaf.ReadBy.regexPattern Leaf.ReadBy.regexFlags Leaf.ReadBy.markupText Leaf.ReadBy.content
  Leaf.ReadBy.hashBang

-- The rules that the areas of the grammar share.
attribute [local simp] Grammar.part Grammar.semicolon optionalSemicolon unit valueName leadingName
  Grammar.constant Grammar.number Grammar.privateName spread target Grammar.parameters Grammar.body
  closingBrace memberName afterName modifier methodModifiers comma Grammar.expression enclosed optionalChain
  staticGet

attribute [local simp] empties bracesStatement keywordStatements declaredVariables declarationOr
  declarationEnd statementTail exportStatement importStatement labeledStatement expressionStatement
  callStart callFirst assignmentStart assignmentFirst objectFirst objectRest blockRest patternEnd
  emptyObject shorthandObject decided sequenceTail exportClause exportedDeclaration exportedDefault
  moduleName braced fromClause namespaceImport namedImports importClause ifStatement forStatement
  forInHead forHead loopBody returnStatement switchStatement doStatement tryStatement jump
  throwStatement operatorOnly startsVariables startsVariablesNotValue startsFunction importExpression in
private theorem statement_isLexical (inCase : Bool) : (statement inCase).IsLexical := by
  simp [statement]

attribute [local simp] Grammar.body callStart callFirst assignmentStart assignmentFirst objectFirst
  objectRest blockRest patternEnd decided shorthandObject statementTail sequenceTail in
private theorem arrowBody_isLexical (c : Ctx) : (arrowBody c).IsLexical := by
  simp [arrowBody]

attribute [local simp] nameOperand nameTail arrow arrowEnd arrowTail parenthesizedOrArrow regex
  asyncOperand newOperand importOperand memberAccess unaryOperators yieldOperand operandStart in
private theorem operand_isLexical (c : Ctx) : (operand c).IsLexical := by
  simp [operand]

attribute [local simp] behind access memberAccess index assignment assignments ternary binary
  assignmentOperators in
private theorem continuation_isLexical (c : Ctx) (level : Nat) : (continuation c level).IsLexical := by
  simp [continuation]

attribute [local simp] methodHead staticGet markedMethod method pair in
private theorem objectMember_isLexical : objectMember.IsLexical := by
  simp [objectMember]

attribute [local simp] elementName namespacePart markupName markupExpression markupAttribute
  attributeString entity in
private theorem element_isLexical : element.IsLexical := by
  simp [element]

private theorem functionForm_isLexical (r : Role) : (functionForm r).IsLexical := by
  simp [functionForm]

private theorem classForm_isLexical (r : Role) : (classForm r).IsLexical := by
  by_cases h : r = .operand <;> simp [classForm, h]

private theorem classMember_isLexical : classMember.IsLexical := by
  simp [classMember]

/-- Every token of the grammar is one of those that it has readers for. -/
theorem isLexical (p : Part) : (grammar p).IsLexical := by
  cases p with
  | statement inCase => exact statement_isLexical inCase
  | block operator => simp [grammar, block, blockRest]
  | declarators => simp [grammar, declarators]
  | parenthesized => simp [grammar, parenthesized]
  | expressions c => simp [grammar, expressions, sequenceTail]
  | expression c level => simp [grammar, expressionFrom]
  | operand c => exact operand_isLexical c
  | continuation c level => exact continuation_isLexical c level
  | arrowBody c => exact arrowBody_isLexical c
  | object => simp [grammar, object]
  | objectMember => exact objectMember_isLexical
  | array => simp [grammar, array]
  | arguments => simp [grammar, arguments]
  | template => simp [grammar, template]
  | string => simp [grammar, string]
  | element => exact element_isLexical
  | decorator => simp [grammar, decorator, memberAccess]
  | functionForm r => exact functionForm_isLexical r
  | classForm r => exact classForm_isLexical r
  | classMember => exact classMember_isLexical

theorem program_isLexical : program.IsLexical := by
  simp [program]

/-- Every token of the grammar is read as a head of the text. -/
theorem readsHeads (p : Part) : (grammar p).ReadsHeads := (isLexical p).imp fun _ => Step.Lexical.readsHead

theorem program_readsHeads : program.ReadsHeads := program_isLexical.imp fun _ => Step.Lexical.readsHead

end Grammar
end ServerSplit.Js
