import ServerSplit.Proofs.Js.Layout
import ServerSplit.Proofs.Js.Runs

/-! Properties of all trees that have been read. A property that says nothing of most kinds of nodes is
kept by every step but the few that end a node of another kind. -/
namespace ServerSplit.Js

namespace Tree

/-- The property holds of the tree and of all trees inside it. -/
def Every (p : Tree → Prop) (t : Tree) : Prop := ∀ u, Holds t u → p u

variable {p : Tree → Prop}

theorem Every.self {t : Tree} (h : Every p t) : p t := h t (.refl t)

theorem every_leaf {t : Token} : Every p (.leaf t) ↔ p (.leaf t) := by
  constructor
  · exact Every.self
  · intro h u hu
    cases hu
    exact h

theorem every_node {k : Kind} {ts : List Tree} :
    Every p (.node k ts) ↔ p (.node k ts) ∧ ∀ t ∈ ts, Every p t := by
  constructor
  · exact fun h => ⟨h.self, fun t ht u hu => h u (.child ht hu)⟩
  · rintro ⟨h, hts⟩ u hu
    cases hu with
    | refl => exact h
    | child ht hu => exact hts _ ht u hu

end Tree

/-- What a tree turns into has the property wherever the tree and all trees inside it have it. -/
structure Kept (p : Tree → Prop) : Prop where
  leaf : ∀ t, p (.leaf t)
  renamed : ∀ {k l ts}, k.isRenamed l = true → p (.node k ts) → p (.node l ts)
  node : ∀ {k l ts us}, k.turnsInto l = true → Recast.GivesAll ts us → p (.node k ts) → p (.node l us)
  sequence : ∀ {ts}, p (.node .cover ts) →
    p (.node .sequence (Recast.trimmed (Recast.inner ts))) ∧
      p (.node .parenthesized (ts.take 1 ++ Recast.groupSequence (Recast.inner ts) ++
        ts.drop ((Recast.inner ts).length + 1)))

/-- The kinds that recasting gives to a node, but for those of functions with a name. -/
def Kind.isGiven : Kind → Bool
  | .objectPattern | .arrayPattern | .restPattern | .pairPattern | .parameters | .function .method
  | .assignmentPattern | .objectAssignmentPattern | .parenthesized | .classExpression | .sequence => true
  | _ => false

/-- A property that says nothing of nodes that were recast, and of functions with a name the same in an
expression as in a declaration. -/
theorem Kept.of_given {p : Tree → Prop} (hleaf : ∀ t, p (.leaf t))
    (hgiven : ∀ k ts, k.isGiven = true → p (.node k ts))
    (hexpression : ∀ ts, p (.node (.function .declaration) ts) → p (.node (.function .expression) ts))
    (hgenerator : ∀ ts, p (.node (.function .generatorDeclaration) ts) → p (.node (.function .generator) ts)) :
    Kept p where
  leaf := hleaf
  renamed := by
    intro k l ts hk
    unfold Kind.isRenamed at hk
    split at hk
    · exact fun _ => hgiven _ _ rfl
    · exact fun _ => hgiven _ _ rfl
    · exact fun _ => hgiven _ _ rfl
    · exact fun _ => hgiven _ _ rfl
    · exact hexpression ts
    · exact hgenerator ts
    · cases hk
  node := by
    intro k l ts us hk _ _
    unfold Kind.turnsInto at hk
    split at hk <;> first | exact hgiven _ _ rfl | cases hk
  sequence := fun _ => ⟨hgiven _ _ rfl, hgiven _ _ rfl⟩

namespace Recast
open Tree

variable {p : Tree → Prop}

mutual

theorem Gives.every (hp : Kept p) {t u : Tree} (h : Gives t u) (ht : Every p t) : Every p u := by
  match h with
  | .same t => exact ht
  | .renamed hk =>
    obtain ⟨ht, hts⟩ := every_node.1 ht
    exact every_node.2 ⟨hp.renamed hk ht, hts⟩
  | .node hk hs =>
    obtain ⟨ht, hts⟩ := every_node.1 ht
    exact every_node.2 ⟨hp.node hk hs ht, hs.every hp hts⟩
  | @Gives.sequence ts _ =>
    obtain ⟨ht, hts⟩ := every_node.1 ht
    obtain ⟨hsequence, hparenthesized⟩ := hp.sequence ht
    have hinner : ∀ t ∈ inner ts, Every p t := fun t ht =>
      hts t (List.mem_of_mem_drop ((List.dropLast_sublist _).mem ht))
    refine every_node.2 ⟨hparenthesized, ?_⟩
    simp only [List.forall_mem_append]
    refine ⟨⟨fun t ht => hts t (List.mem_of_mem_take ht), fun t ht => ?_⟩,
      fun t ht => hts t (List.mem_of_mem_drop ht)⟩
    rcases mem_groupSequence ht with rfl | ht
    · exact every_node.2 ⟨hsequence, fun t ht => hinner t (mem_of_mem_trimmed ht)⟩
    · exact hinner t ht

theorem GivesAll.every (hp : Kept p) {ts us : List Tree} (h : GivesAll ts us)
    (hts : ∀ t ∈ ts, Every p t) : ∀ u ∈ us, Every p u := by
  match h with
  | .nil => exact hts
  | .cons h hs =>
    obtain ⟨ht, hts⟩ := List.forall_mem_cons.1 hts
    exact List.forall_mem_cons.2 ⟨h.every hp ht, hs.every hp hts⟩

end

end Recast

/-! ### Steps -/

open Grammar (R Part)
open Tree

namespace Reader

/-- The property holds of all trees that have been read. -/
def Every (p : Tree → Prop) (s : Reader) : Prop := ∀ t ∈ s.trees, t.Every p

/-- The reader holds the source, and all its trees have the property. -/
structure Good (source : Text) (p : Tree → Prop) (s : Reader) : Prop where
  covers : s.Covers source
  every : s.Every p

end Reader

/-- Every step keeps such a property, if the node that it ends has it. -/
theorem Step.every {p : Tree → Prop} (hp : Kept p) {a : Step} {s s' : Reader}
    (hend : ∀ k, a = .finish k → p (.node k s.items.reverse)) (h : a.run s = some s')
    (hs : s.Every p) : s'.Every p := by
  unfold Reader.Every at hs ⊢
  rcases Step.trees_cases h with ⟨new, hnew, hleaves⟩ | ⟨k, xs, rfl, ht, ht'⟩ |
    ⟨r, xs, t, u, ys, rfl, ht, ht', hu⟩
  · rw [hnew]
    refine List.forall_mem_append.2 ⟨hs, ?_⟩
    intro c hc
    obtain ⟨t, rfl⟩ := hleaves c hc
    exact every_leaf.2 (hp.leaf t)
  · rw [ht] at hs
    obtain ⟨hxs, hys⟩ := List.forall_mem_append.1 hs
    rw [ht']
    exact List.forall_mem_append.2 ⟨hxs, List.forall_mem_singleton.2 (every_node.2 ⟨hend k rfl, hys⟩)⟩
  · rw [ht] at hs
    obtain ⟨hxs, htys⟩ := List.forall_mem_append.1 hs
    obtain ⟨ht, hys⟩ := List.forall_mem_cons.1 htys
    rw [ht']
    have hu := (Recast.apply_gives hu).every hp ht
    exact List.forall_mem_append.2 ⟨hxs, List.forall_mem_cons.2 ⟨hu, hys⟩⟩

theorem Reader.Good.step {source : Text} {p : Tree → Prop} (hp : Kept p) {a : Step} {s s' : Reader}
    (hs : s.Good source p) (ha : a.ReadsHead) (hend : ∀ k, a = .finish k → p (.node k s.items.reverse))
    (h : a.run s = some s') : s'.Good source p :=
  ⟨Step.covers ha hs.covers h, a.every hp hend h hs.every⟩

/-! ### Rules -/

namespace Rule

/-- The kinds of the nodes that the steps of a rule end. -/
def ends {σ : Type} : Rule σ → List Kind
  | .step (.finish k) => [k]
  | .seq a b | .alt a b => a.ends ++ b.ends
  | .many a => a.ends
  | .empty | .step _ | .part _ | .present _ | .absent _ => []

theorem each_ends {free : Kind → Bool} {r : R} (h : r.ends.all free = true) :
    r.Each fun a => ∀ k, a = .finish k → free k = true := by
  induction r with
  | empty | part | present | absent => trivial
  | step a =>
    rintro k rfl
    simpa [ends] using h
  | seq a b iha ihb | alt a b iha ihb =>
    rw [ends, List.all_append, Bool.and_eq_true] at h
    exact ⟨iha h.1, ihb h.2⟩
  | many a ih => exact ih h

end Rule

namespace Grammar
open Rule Reader

/-- The kinds of the nodes that go on with an expression. -/
def continuationKinds : List Kind :=
  [.member, .subscript, .call, .assignment, .augmentedAssignment, .update, .ternary, .binary]

theorem continuation_ends {free : Kind → Bool} (h : continuationKinds.all free = true) (c : Ctx)
    (level : Nat) : (continuation c level).ends.all free = true := by
  have hkinds : (continuation c level).ends.all (continuationKinds.contains ·) = true := by
    refine continuation_of_forall (C := fun r => r.ends.all (continuationKinds.contains ·) = true)
      ?_ ?_ ?_ ?_ ?_ ?_ ?_ ?_ ?_ ?_ c level
    · intro r r' h h'
      change ((r.ends ++ r'.ends).all _) = true
      rw [List.all_append, h, h']
      rfl
    · exact fun c => rfl
    · exact fun c r h => h
    · rintro ⟨_, _, noCall⟩
      cases noCall <;> rfl
    · intro c r hr
      fin_cases hr <;> rfl
    · rfl
    · exact fun c => rfl
    · intro c l hl
      fin_cases hl <;> rfl
    · exact fun c n s => rfl
    · rfl
  rw [List.all_eq_true] at h hkinds ⊢
  exact fun k hk => h k (List.contains_iff_mem.1 (hkinds k hk))

/-! ### Readings -/

/-- With the given fuel, the rule keeps what is good. -/
abbrev Keeps (source : Text) (p : Tree → Prop) (N : Nat) (r : R) : Prop := Preserves (Good source p) N r

section Keeps

variable {source : Text} {p : Tree → Prop} {N : Nat} {a : R}

/-- The reading of a node keeps what is good, if the node has the property. -/
theorem keeps_node (hp : Kept p) {k : Kind} (ha : Keeps source p N a)
    (hnode : ∀ t u, t.items = [] → t.settled = true → Good source p t → Runs N a t u →
      p (.node k u.items.reverse)) :
    Keeps source p N (node k a) := by
  intro s s' hs h
  obtain ⟨t, u, hsettle, hrun, hend⟩ := h.node
  have ht : Good source p t := hs.step hp (a := .gap {}) trivial (fun k h => (nomatch h)) hsettle
  have hopened : Good source p t.opened := ht.step hp (a := .opening) trivial (fun k h => (nomatch h)) rfl
  refine (ha _ _ hopened hrun).step hp (a := .finish k) trivial ?_ hend
  rintro _ ⟨⟩
  exact hnode t.opened u rfl (settled_opened hsettle) hopened hrun

/-- Rules that end only nodes of which the property says nothing, over parts that keep what is good. -/
theorem keeps_free (hp : Kept p) {free : Kind → Bool} (hfree : ∀ k ts, free k = true → p (.node k ts))
    (hparts : ∀ M < N, ∀ q, Keeps source p M (grammar q)) (hreads : a.ReadsHeads)
    (hends : a.ends.all free = true) : Keeps source p N a := by
  intro s s' hs h
  have hboth : a.Each fun x => x.ReadsHead ∧ ∀ k, x = .finish k → free k = true :=
    each_and.2 ⟨hreads.each, each_ends hends⟩
  refine h.keeps ?_ hparts hboth hs
  rintro x t t' ⟨hread, hend⟩ ht hx
  exact ht.step hp hread (fun k hk => hfree k _ (hend k hk)) hx

/-- The kinds of nodes that end in an element, but for the strings of its attributes. -/
def elementKinds : List Kind := element.ends.filter (· ≠ .string)

/-- Rules that end only such nodes. -/
private theorem keeps_inElement (hp : Kept p) {free : Kind → Bool}
    (hfree : ∀ k ts, free k = true → p (.node k ts)) (hkinds : elementKinds.all free = true)
    (hparts : ∀ M < N, ∀ q, Keeps source p M (grammar q)) (hreads : a.ReadsHeads)
    (hends : a.ends.all (elementKinds.contains ·) = true) : Keeps source p N a := by
  refine keeps_free hp hfree hparts hreads (List.all_eq_true.2 fun k hk => ?_)
  exact List.all_eq_true.1 hkinds k (List.contains_iff_mem.1 (List.all_eq_true.1 hends k hk))

/-- The reading of an element keeps what is good, if that of the strings of its attributes does and the
property says nothing of its other nodes. -/
theorem keeps_element (hp : Kept p) {free : Kind → Bool} (hfree : ∀ k ts, free k = true → p (.node k ts))
    (hkinds : elementKinds.all free = true) (hparts : ∀ M < N, ∀ q, Keeps source p M (grammar q))
    (hstring : Keeps source p N attributeString) : Keeps source p N element := by
  have inside {r : R} (hreads : r.ReadsHeads) (hends : r.ends.all (elementKinds.contains ·) = true) :
      Keeps source p N r := keeps_inElement hp hfree hkinds hparts hreads hends
  obtain ⟨⟨⟨hgap, hopening⟩, hmark⟩, ⟨⟨hname, hattributes⟩, hend⟩, hcontent⟩ := readsHeads .element
  obtain ⟨hexpression, ⟨-, hkey, ⟨hequals, -, helse⟩, -⟩, -⟩ := hattributes
  have hvalue : Keeps source p N (mark "=" ++ anyOf [attributeString, markupExpression, part .element]) :=
    (inside hequals rfl).seq (hstring.orElse (inside helse rfl))
  have hnode : Keeps source p N (node .markupAttribute (markupName ++ opt namespacePart ++
      opt (mark "=" ++ anyOf [attributeString, markupExpression, part .element]))) :=
    keeps_node hp ((inside hkey rfl).seq hvalue.opt)
      fun _ _ _ _ _ _ => hfree _ _ (List.all_eq_true.1 hkinds .markupAttribute (by decide))
  have hattribute : Keeps source p N markupAttribute := (inside hexpression rfl).orElse hnode
  have hstart : Keeps source p N (gap {} ++ step .opening ++ mark "<") := inside ⟨⟨hgap, hopening⟩, hmark⟩ rfl
  have hcontent : Keeps source p N _ := inside hcontent rfl
  exact hstart.seq ((((inside hname rfl).seq hattribute.many).seq (inside hend rfl)).orElse hcontent)

end Keeps

end Grammar

/-- What every part of the grammar keeps, the tree of a source has in it. -/
theorem parse_every {source : Text} {p : Tree → Prop} (hp : Kept p) {free : Kind → Bool}
    (hfree : ∀ k ts, free k = true → p (.node k ts)) (hprogram : free .program = true)
    (hends : Grammar.program.ends.all free = true)
    (hparts : ∀ N q, Grammar.Keeps source p N (grammar q)) {tree : Tree} (h : parse source = some tree) :
    tree.Every p := by
  unfold parse at h
  split at h
  · rename_i s hs
    simp only at h
    split at h
    · cases h
      have hstart : Reader.Good source p (.ofText source) :=
        ⟨Reader.ofText_covers source, fun t ht => (nomatch ht)⟩
      have hkeeps : Grammar.Keeps source p (1024 * (source.length + 1)) Grammar.program :=
        Grammar.keeps_free hp hfree (fun M _ q => hparts M q) Grammar.program_readsHeads hends
      have hgood := hkeeps _ s hstart ⟨_, Nat.le_refl _, hs⟩
      refine Tree.every_node.2 ⟨hfree _ _ hprogram, ?_⟩
      intro t ht
      exact hgood.every t (by simp [Reader.trees, List.mem_reverse.1 ht])
    · cases h
  · cases h

end ServerSplit.Js
