import Mathlib.Data.List.TakeWhile
import Mathlib.Data.Option.Basic
import ServerSplit.Js.Recast
import ServerSplit.Proofs.Js.Tree

/-! Recasting a tree changes what its nodes are called and nothing else: its tokens stay, and so do the
numbers of its children. -/
namespace ServerSplit.Js

/-! ### What a tree may turn into -/

/-- The kinds that a node gets for its own, its children recast or as they were. -/
def Kind.turnsInto : Kind → Kind → Bool
  | .object, .objectPattern | .array, .arrayPattern | .spread, .restPattern | .pair, .pairPattern
  | .cover, .parameters | .arguments, .parameters | .cover, .function .method => true
  | _, _ => false

/-- The kinds that a node gets for its own with the same children. -/
def Kind.isRenamed : Kind → Kind → Bool
  | .assignment, .assignmentPattern | .coverInitializer, .objectAssignmentPattern
  | .cover, .parenthesized | .classDeclaration, .classExpression
  | .function .declaration, .function .expression
  | .function .generatorDeclaration, .function .generator => true
  | _, _ => false

theorem Kind.least_le_of_turnsInto {k l : Kind} (h : k.turnsInto l = true) : l.least ≤ k.least := by
  unfold turnsInto at h
  split at h <;> first | decide | cases h

theorem Kind.least_le_of_isRenamed {k l : Kind} (h : k.isRenamed l = true) : l.least ≤ k.least := by
  unfold isRenamed at h
  split at h <;> first | decide | cases h

namespace Recast

mutual

inductive Gives : Tree → Tree → Prop
  | same (t : Tree) : Gives t t
  | renamed {k l : Kind} {ts : List Tree} (hk : k.isRenamed l = true) : Gives (.node k ts) (.node l ts)
  | node {k l : Kind} {ts us : List Tree} (hk : k.turnsInto l = true) (h : GivesAll ts us) :
    Gives (.node k ts) (.node l us)
  /-- What stands in the parentheses becomes one sequence. -/
  | sequence {ts : List Tree} (h : 0 < Tree.solid (inner ts)) : Gives (.node .cover ts)
      (.node .parenthesized (ts.take 1 ++ groupSequence (inner ts) ++ ts.drop ((inner ts).length + 1)))

inductive GivesAll : List Tree → List Tree → Prop
  | nil : GivesAll [] []
  | cons {t u : Tree} {ts us : List Tree} (h : Gives t u) (hs : GivesAll ts us) :
    GivesAll (t :: ts) (u :: us)

end

mutual

theorem asPattern_gives {t u : Tree} (h : asPattern t = some u) : Gives t u := by
  unfold asPattern at h
  split at h
  · split at h
    · cases h; exact .same _
    · cases h
  · obtain ⟨us, hus, rfl⟩ := Option.map_eq_some_iff.1 h
    exact .node rfl (asMembers_gives hus)
  · obtain ⟨us, hus, rfl⟩ := Option.map_eq_some_iff.1 h
    exact .node rfl (asElements_gives hus)
  · split at h
    · cases h; exact .same _
    · cases h

theorem asElement_gives {t u : Tree} (h : asElement t = some u) : Gives t u := by
  unfold asElement at h
  split at h
  · split at h
    · cases h; exact .same _
    · cases h
  · obtain ⟨us, hus, rfl⟩ := Option.map_eq_some_iff.1 h
    exact .node rfl (asMembers_gives hus)
  · obtain ⟨us, hus, rfl⟩ := Option.map_eq_some_iff.1 h
    exact .node rfl (asElements_gives hus)
  · split at h
    · cases h; exact .renamed rfl
    · cases h
  · obtain ⟨us, hus, rfl⟩ := Option.map_eq_some_iff.1 h
    exact .node rfl (.cons (.same _) (asPatterns_gives hus))
  · split at h
    · cases h; exact .same _
    · cases h

theorem asElements_gives {ts us : List Tree} (h : asElements ts = some us) : GivesAll ts us := by
  unfold asElements at h
  split at h
  · cases h; exact .nil
  · obtain ⟨u, hu, h⟩ := Option.bind_eq_some_iff.1 h
    obtain ⟨us, hus, h⟩ := Option.bind_eq_some_iff.1 h
    cases h
    exact .cons (asElement_gives hu) (asElements_gives hus)

theorem asMember_gives {t u : Tree} (h : asMember t = some u) : Gives t u := by
  unfold asMember at h
  split at h
  · cases h; exact .same _
  · obtain ⟨us, hus, rfl⟩ := Option.map_eq_some_iff.1 h
    exact .node rfl (asValue_gives hus)
  · cases h; exact .renamed rfl
  · obtain ⟨us, hus, rfl⟩ := Option.map_eq_some_iff.1 h
    exact .node rfl (.cons (.same _) (asPatterns_gives hus))
  · cases h

theorem asMembers_gives {ts us : List Tree} (h : asMembers ts = some us) : GivesAll ts us := by
  unfold asMembers at h
  split at h
  · cases h; exact .nil
  · obtain ⟨u, hu, h⟩ := Option.bind_eq_some_iff.1 h
    obtain ⟨us, hus, h⟩ := Option.bind_eq_some_iff.1 h
    cases h
    exact .cons (asMember_gives hu) (asMembers_gives hus)

theorem asPatterns_gives {ts us : List Tree} (h : asPatterns ts = some us) : GivesAll ts us := by
  unfold asPatterns at h
  split at h
  · cases h; exact .nil
  · split at h
    · obtain ⟨u, hu, h⟩ := Option.bind_eq_some_iff.1 h
      obtain ⟨us, hus, h⟩ := Option.bind_eq_some_iff.1 h
      cases hu
      cases h
      exact .cons (.same _) (asPatterns_gives hus)
    · obtain ⟨u, hu, h⟩ := Option.bind_eq_some_iff.1 h
      obtain ⟨us, hus, h⟩ := Option.bind_eq_some_iff.1 h
      cases h
      exact .cons (asPattern_gives hu) (asPatterns_gives hus)

theorem asValue_gives {ts us : List Tree} (h : asValue ts = some us) : GivesAll ts us := by
  unfold asValue at h
  split at h
  · cases h; exact .nil
  · split at h
    · obtain ⟨us, hus, rfl⟩ := Option.map_eq_some_iff.1 h
      exact .cons (.same _) (asElements_gives hus)
    · obtain ⟨us, hus, rfl⟩ := Option.map_eq_some_iff.1 h
      exact .cons (.same _) (asValue_gives hus)

end

theorem asParameters_gives {t u : Tree} (h : asParameters t = some u) : Gives t u := by
  cases t with
  | leaf t => cases h
  | node k ts =>
    unfold asParameters at h
    obtain ⟨_, hk, h⟩ := Option.bind_eq_some_iff.1 h
    obtain ⟨_, _, h⟩ := Option.bind_eq_some_iff.1 h
    obtain ⟨us, hus, h⟩ := Option.bind_eq_some_iff.1 h
    cases h
    have hk : k = .cover ∨ k = .arguments := by simpa using (Option.guard_eq_some' _).1 hk
    rcases hk with rfl | rfl <;> exact .node rfl (asElements_gives hus)

theorem asExpression_gives {t u : Tree} (h : asExpression t = some u) : Gives t u := by
  unfold asExpression at h
  split at h <;> cases h <;> exact .renamed rfl

private theorem mapM_gives {f : Tree → Option Tree} (hf : ∀ t u, f t = some u → Gives t u)
    {ts us : List Tree} (h : ts.mapM f = some us) : GivesAll ts us := by
  induction ts generalizing us with
  | nil => cases h; exact .nil
  | cons t ts ih =>
    rw [List.mapM_cons] at h
    obtain ⟨u, hu, h⟩ := Option.bind_eq_some_iff.1 h
    obtain ⟨vs, hvs, h⟩ := Option.bind_eq_some_iff.1 h
    cases h
    exact .cons (hf t u hu) (ih hvs)

theorem asMethod_gives {t u : Tree} (h : asMethod t = some u) : Gives t u := by
  unfold asMethod at h
  split at h
  · obtain ⟨us, hus, rfl⟩ := Option.map_eq_some_iff.1 h
    refine .node rfl (mapM_gives (fun t u htu => ?_) hus)
    split at htu
    · exact asParameters_gives htu
    · cases htu; exact .same _
  · cases h

theorem asParenthesized_gives {t u : Tree} (h : asParenthesized t = some u) : Gives t u := by
  unfold asParenthesized at h
  split at h
  · rename_i ts
    obtain ⟨_, hkept, h⟩ := Option.bind_eq_some_iff.1 h
    obtain ⟨_, _, h⟩ := Option.bind_eq_some_iff.1 h
    obtain ⟨_, _, h⟩ := Option.bind_eq_some_iff.1 h
    split at h
    · cases h
      exact .renamed rfl
    · cases h
      refine .sequence ?_
      rw [Tree.solid, List.countP_eq_length_filter]
      refine List.length_pos_iff.2 fun hnil => ?_
      rw [hnil] at hkept
      have hnone : (none : Option Unit) = some _ := hkept
      cases hnone
  · cases h

theorem apply_gives {r : Recast} {t u : Tree} (h : r.apply t = some u) : Gives t u := by
  cases r with
  | pattern => exact asPattern_gives h
  | assigned =>
    simp only [apply] at h
    split at h
    · cases h; exact .same _
    · exact asPattern_gives h
  | parameters => exact asParameters_gives h
  | parenthesized => exact asParenthesized_gives h
  | expression => exact asExpression_gives h
  | method => exact asMethod_gives h

/-! ### Sequences in parentheses -/

/-- A row of trees without the comments before it and behind it. -/
def trimmed (ts : List Tree) : List Tree :=
  ((ts.dropWhile Tree.isComment).reverse.dropWhile Tree.isComment).reverse

/-- A row of trees is the comments before it, those behind it and what is between them. -/
theorem comments_around (ts : List Tree) :
    ts.takeWhile Tree.isComment ++
      (trimmed ts ++ ((ts.dropWhile Tree.isComment).reverse.takeWhile Tree.isComment).reverse) = ts := by
  rw [trimmed, ← List.reverse_append, List.takeWhile_append_dropWhile, List.reverse_reverse,
    List.takeWhile_append_dropWhile]

theorem mem_of_mem_trimmed {ts : List Tree} {t : Tree} (h : t ∈ trimmed ts) : t ∈ ts := by
  rw [← comments_around ts]
  simp [h]

theorem mem_groupSequence {ts : List Tree} {t : Tree} (h : t ∈ groupSequence ts) :
    t = .node .sequence (trimmed ts) ∨ t ∈ ts := by
  have hts := congrArg (t ∈ ·) (comments_around ts)
  simp only [groupSequence, List.mem_append, List.mem_cons, eq_iff_iff] at h hts
  rcases h with h | rfl | h
  · exact .inr (hts.1 (.inl h))
  · exact .inl rfl
  · exact .inr (hts.1 (.inr (.inr h)))

/-- What stands in parentheses is what the parentheses and the tokens outside them leave. -/
theorem take_inner_drop (ts : List Tree) :
    ts.take 1 ++ (inner ts ++ ts.drop ((inner ts).length + 1)) = ts := by
  have hp := List.prefix_iff_eq_append.1 (List.dropLast_prefix (ts.drop 1))
  rw [List.drop_drop, Nat.add_comm] at hp
  rw [inner, hp, List.take_append_drop]

private theorem solid_comments (ts : List Tree) :
    Tree.solid (ts.takeWhile Tree.isComment) = 0 := by
  rw [Tree.solid, List.countP_eq_zero]
  intro t ht
  simp [List.mem_takeWhile_imp ht]

private theorem groupSequence_tokens (ts : List Tree) :
    Tree.tokensOf (groupSequence ts) = Tree.tokensOf ts := by
  conv => rhs; rw [← comments_around ts]
  simp [groupSequence, trimmed, Tree.tokensOf, Tree.tokens]

private theorem groupSequence_full {ts : List Tree} (hs : 0 < Tree.solid ts) (h : Tree.FullAll ts) :
    Tree.FullAll (groupSequence ts) := by
  have hts := comments_around ts
  have hsolid : 0 < Tree.solid (trimmed ts) := by
    rw [← hts] at hs
    simpa [solid_comments] using hs
  rw [← hts, Tree.fullAll_append, Tree.fullAll_append] at h
  obtain ⟨hb, hm, ha⟩ := h
  simp only [groupSequence, Tree.fullAll_append]
  exact ⟨hb, ⟨hsolid, hm⟩, ha⟩

end Recast

/-! ### What stays -/

/-- The tree has the tokens of the other, and is as full. -/
structure Alike (t u : Tree) : Prop where
  tokens : u.tokens = t.tokens
  isComment : u.isComment = t.isComment
  full : t.Full → u.Full

/-- The same of rows of trees. -/
structure AlikeAll (ts us : List Tree) : Prop where
  tokens : Tree.tokensOf us = Tree.tokensOf ts
  solid : Tree.solid us = Tree.solid ts
  full : Tree.FullAll ts → Tree.FullAll us

theorem Alike.refl (t : Tree) : Alike t t := ⟨rfl, rfl, id⟩

theorem AlikeAll.refl (ts : List Tree) : AlikeAll ts ts := ⟨rfl, rfl, id⟩

theorem AlikeAll.cons {t u : Tree} {ts us : List Tree} (h : Alike t u) (hs : AlikeAll ts us) :
    AlikeAll (t :: ts) (u :: us) where
  tokens := by simp [Tree.tokensOf, h.tokens, hs.tokens]
  solid := by simp [Tree.solid_cons, h.isComment, hs.solid]
  full := fun hf => ⟨h.full hf.1, hs.full hf.2⟩

/-- A node whose children change, and whose kind asks for no more of them. -/
theorem AlikeAll.node {k l : Kind} {ts us : List Tree} (h : AlikeAll ts us) (hl : l.least ≤ k.least) :
    Alike (.node k ts) (.node l us) where
  tokens := h.tokens
  isComment := rfl
  full := fun hf => ⟨by rw [h.solid]; exact Nat.le_trans hl hf.1, h.full hf.2⟩

namespace Recast

private theorem sequence_alike {ts : List Tree} (h : 0 < Tree.solid (inner ts)) : Alike (.node .cover ts)
    (.node .parenthesized (ts.take 1 ++ groupSequence (inner ts) ++ ts.drop ((inner ts).length + 1))) := by
  have hts := take_inner_drop ts
  refine ⟨?_, rfl, fun hf => ⟨?_, ?_⟩⟩
  · conv => rhs; rw [← hts]
    simp [Tree.tokens, groupSequence_tokens]
  · simp only [Kind.least, Tree.solid_append, groupSequence, Tree.solid_cons]
    simp [Tree.isComment_node]
    omega
  · have hf' := hf.2
    rw [← hts, Tree.fullAll_append, Tree.fullAll_append] at hf'
    simp only [Tree.fullAll_append]
    exact ⟨⟨hf'.1, groupSequence_full h hf'.2.1⟩, hf'.2.2⟩

mutual

theorem Gives.alike {t u : Tree} (h : Gives t u) : Alike t u := by
  match h with
  | .same t => exact .refl t
  | .renamed hk => exact (AlikeAll.refl _).node (Kind.least_le_of_isRenamed hk)
  | .node hk hs => exact hs.alike.node (Kind.least_le_of_turnsInto hk)
  | .sequence hs => exact sequence_alike hs

theorem GivesAll.alike {ts us : List Tree} (h : GivesAll ts us) : AlikeAll ts us := by
  match h with
  | .nil => exact .refl []
  | .cons h hs => exact .cons h.alike hs.alike

end

/-- Whatever a tree turns into has its tokens, and is as full as the tree was. -/
theorem apply_alike {r : Recast} {t u : Tree} (h : r.apply t = some u) : Alike t u :=
  (apply_gives h).alike

end Recast

end ServerSplit.Js
