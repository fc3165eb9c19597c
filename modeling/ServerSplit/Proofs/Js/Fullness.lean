import Mathlib.Tactic.FinCases
import ServerSplit.Proofs.Js.Cover

/-! No node of a tree is empty. How many trees every open node has at least is followed through a rule
without a text: each rule of the grammar closes a node only where there are trees enough for it. -/
namespace ServerSplit.Js

/-! ### Bounds -/

/-- Lower bounds on the numbers of trees, comments apart, of the open nodes, innermost first. The last
one is a difference: it belongs to the node that was open before. -/
abbrev Bounds := List Int

namespace Bounds

/-- The numbers `ns` keep the bounds, from a node that had `base` trees and stood in nodes with
`around`. -/
def Meets (base : Int) (around : List Int) : Bounds → List Int → Prop
  | [a], n :: ns => base + a ≤ n ∧ ns = around
  | a :: b :: as, n :: ns => a ≤ n ∧ Meets base around (b :: as) ns
  | _, _ => False

/-- Bounds that ask for nothing more. -/
def weaker : Bounds → Bounds → Bool
  | [], [] => true
  | a :: as, b :: bs => decide (a ≤ b) && weaker as bs
  | _, _ => false

/-- What holds after either of two rules. -/
def either (as bs : Bounds) : Option Bounds :=
  if as.length = bs.length then some (as.zipWith min bs) else none

variable {base : Int} {around : List Int}

theorem Meets.ne_nil {as : Bounds} {ns : List Int} (h : Meets base around as ns) : as ≠ [] := by
  rintro rfl
  exact h

/-- The innermost node may change alone. -/
theorem Meets.head {a a' n n' : Int} {as : Bounds} {ns : List Int}
    (h : Meets base around (a :: as) (n :: ns)) (hn : a' - a ≤ n' - n) :
    Meets base around (a' :: as) (n' :: ns) := by
  cases as with
  | nil =>
    obtain ⟨h, hns⟩ := h
    exact ⟨by omega, hns⟩
  | cons b bs =>
    obtain ⟨h, hns⟩ := h
    exact ⟨by omega, hns⟩

theorem Meets.weaken {as bs : Bounds} {ns : List Int} (h : Meets base around bs ns)
    (hw : weaker as bs = true) : Meets base around as ns := by
  induction as generalizing bs ns with
  | nil =>
    cases bs with
    | nil => exact h
    | cons b bs => cases hw
  | cons a as ih =>
    cases bs with
    | nil => cases hw
    | cons b bs =>
      simp only [weaker, Bool.and_eq_true, decide_eq_true_eq] at hw
      cases ns with
      | nil => cases bs <;> exact h.elim
      | cons n ns =>
        cases as with
        | nil =>
          cases bs with
          | nil => exact h.head (by omega)
          | cons c bs => cases hw.2
        | cons c as =>
          cases bs with
          | nil => cases hw.2
          | cons d bs => exact ⟨by have := h.1; omega, ih h.2 hw.2⟩

theorem weaker_zipWith_min {as bs : Bounds} (h : as.length = bs.length) :
    weaker (as.zipWith min bs) as = true ∧ weaker (as.zipWith min bs) bs = true := by
  induction as generalizing bs with
  | nil =>
    cases bs with
    | nil => exact ⟨rfl, rfl⟩
    | cons b bs => cases h
  | cons a as ih =>
    cases bs with
    | nil => cases h
    | cons b bs =>
      have hl : as.length = bs.length := by simpa using h
      have := ih hl
      simp only [List.zipWith_cons_cons, weaker, Bool.and_eq_true, decide_eq_true_eq]
      exact ⟨⟨by omega, this.1⟩, ⟨by omega, this.2⟩⟩

theorem weaker_of_either {as bs cs : Bounds} (h : either as bs = some cs) :
    weaker cs as = true ∧ weaker cs bs = true := by
  unfold either at h
  split at h
  · rename_i hl
    cases h
    exact weaker_zipWith_min hl
  · cases h

end Bounds

/-- What a token adds to the trees that are no comments. -/
def Leaf.weight : Leaf → Int
  | .comment | .markupComment => 0
  | _ => 1

/-- What a step makes of bounds. -/
def Step.bounds : Step → Bounds → Option Bounds
  | .token k _, a :: as | .glued k _, a :: as => some ((a + k.weight) :: as)
  | .question _, a :: as => some ((a + 1) :: as)
  | .opening, as => some (0 :: as)
  | .adopt n, a :: as => some (n :: (a - n) :: as)
  | .finish k, a :: b :: as => if k.least ≤ a then some ((b + 1) :: as) else none
  | .comment _, as | .gap _, as | .insertion _, as | .closing _, as | .recast _, as
  | .last _, as => some as
  | _, _ => none

/-- What a rule makes of bounds, when `gain` says how many trees each part adds at least. -/
def Rule.bounds {σ : Type} (gain : σ → Int) : Rule σ → Bounds → Option Bounds
  | .empty, as | .present _, as | .absent _, as => some as
  | .step s, as => s.bounds as
  | .part p, a :: as => some ((a + gain p) :: as)
  | .part _, [] => none
  | .seq r r', as => (r.bounds gain as).bind (r'.bounds gain)
  | .alt r r', as => (r.bounds gain as).bind fun bs => (r'.bounds gain as).bind (Bounds.either bs)
  | .many r, as => (r.bounds gain as).bind fun bs => if Bounds.weaker as bs then some as else none

/-! ### The bounds are kept -/

namespace Reader

/-- The numbers of trees of the open nodes, comments apart. -/
def counts (s : Reader) : List Int :=
  (Tree.solid s.items : Int) :: s.outer.map fun ts => (Tree.solid ts : Int)

/-- No node built so far is empty. -/
def AllFull (s : Reader) : Prop := Tree.FullAll s.items ∧ ∀ ts ∈ s.outer, Tree.FullAll ts

/-- `s'` has a few comments more. -/
structure Commented (s s' : Reader) : Prop where
  counts : s'.counts = s.counts
  full : s.AllFull → s'.AllFull

theorem Commented.refl (s : Reader) : Commented s s := ⟨rfl, id⟩

theorem Commented.trans {s t u : Reader} (h : Commented s t) (h' : Commented t u) : Commented s u :=
  ⟨h'.counts.trans h.counts, h'.full ∘ h.full⟩

theorem counts_push (s : Reader) (k : Leaf) (w r : Text) :
    (s.push k w r).counts =
      (Tree.solid s.items + k.weight) :: s.outer.map fun ts => (Tree.solid ts : Int) := by
  simp only [counts, push, Tree.solid_cons, List.cons.injEq, and_true]
  cases k <;> simp [Tree.isComment, Tree.isLeaf, Leaf.weight, Int.add_comm]

theorem AllFull.push {s : Reader} (h : s.AllFull) (k : Leaf) (w r : Text) : (s.push k w r).AllFull :=
  ⟨⟨trivial, h.1⟩, h.2⟩

theorem push_commented {s : Reader} {k : Leaf} (hk : k.weight = 0) (w r : Text) :
    Commented s (s.push k w r) where
  counts := by rw [counts_push, hk]; simp [counts]
  full := fun h => h.push k w r

theorem skipBlanks_commented (s : Reader) : Commented s s.skipBlanks := ⟨rfl, id⟩

theorem comment?_weight {g : Gap} {s : Reader} {k : Leaf} {w r : Text}
    (h : comment? g s = some (k, w, r)) : k.weight = 0 := by
  unfold comment? at h
  split at h
  · cases h; rfl
  · split at h
    · obtain ⟨_, _, he⟩ := Option.map_eq_some_iff.1 h
      cases he; rfl
    · cases h

theorem comment_commented {g : Gap} {s s' : Reader} (hs : s.comment g = some s') : Commented s s' := by
  unfold comment at hs
  split at hs
  · cases hs
  · obtain ⟨⟨k, w, r⟩, hc, rfl⟩ := Option.map_eq_some_iff.1 hs
    exact s.skipBlanks_commented.trans (push_commented (comment?_weight hc) w r)

theorem settle_commented {g : Gap} {s s' : Reader} (hs : s.settle g = some s') : Commented s s' := by
  unfold settle at hs
  split at hs
  · cases hs; exact .refl s
  · exact go hs
where
  go {n : Text} {s : Reader} (hs : settle.go g n s = some s') : Commented s s' := by
    induction n generalizing s with
    | nil => cases hs
    | cons _ n ih =>
      simp only [settle.go] at hs
      split at hs
      · cases hs
      · split at hs
        · rename_i hc
          exact (s.skipBlanks_commented.trans (push_commented (comment?_weight hc) _ _)).trans (ih hs)
        · cases hs
          exact ⟨rfl, id⟩

theorem insertion_commented {operator : Bool} {s s' : Reader} (hs : s.insertion operator = some s') :
    Commented s s' := by
  unfold insertion at hs
  split at hs
  · cases hs
  · exact go hs
where
  go {n : Text} {s : Reader} (hs : insertion.go operator n s = some s') : Commented s s' := by
    induction n generalizing s with
    | nil => cases hs
    | cons _ n ih =>
      simp only [insertion.go] at hs
      split at hs
      · cases hs
        exact ⟨rfl, id⟩
      · obtain ⟨p, hp, hs⟩ := Option.bind_eq_some_iff.1 hs
        exact (s.skipBlanks_commented.trans (push_commented rfl p.1 p.2)).trans (ih hs)

theorem splitLast_solid {n : Nat} {ts us vs : List Tree} (h : splitLast n ts = some (us, vs)) :
    Tree.solid us = n := by
  induction ts generalizing n us with
  | nil =>
    cases n with
    | zero => cases h; rfl
    | succ n => cases h
  | cons t ts ih =>
    cases n with
    | zero => cases h; rfl
    | succ n =>
      obtain ⟨p, hp, he⟩ := Option.map_eq_some_iff.1 h
      cases he
      have := ih hp
      rw [Tree.solid_cons]
      split at this
      · simp_all
      · simp_all
        omega

end Reader

open Bounds Reader

variable {base : Int} {around : List Int} {as as' : Bounds} {s s' : Reader}

/-- A token keeps its bounds. -/
theorem Reader.push_meets {a : Int} {as : Bounds} (h : Meets base around (a :: as) s.counts)
    (k : Leaf) (w r : Text) : Meets base around ((a + k.weight) :: as) (s.push k w r).counts := by
  rw [counts_push]
  exact h.head (by omega)

theorem Reader.take_meets {a : Int} {as : Bounds} {k : Leaf} {reads : Reads}
    (h : Meets base around (a :: as) s.counts) (hf : s.AllFull) (hs : s.take k reads = some s') :
    Meets base around ((a + k.weight) :: as) s'.counts ∧ s'.AllFull := by
  obtain ⟨p, _, rfl⟩ := Option.map_eq_some_iff.1 hs
  exact ⟨push_meets h k p.1 p.2, hf.push k p.1 p.2⟩

/-- Every step keeps its bounds and makes no empty node. -/
theorem Step.meets {a : Step} (hb : a.bounds as = some as') (hs : a.run s = some s')
    (h : Meets base around as s.counts) (hf : s.AllFull) :
    Meets base around as' s'.counts ∧ s'.AllFull := by
  have commented (hc : Commented s s') : Meets base around as s'.counts ∧ s'.AllFull :=
    ⟨hc.counts ▸ h, hc.full hf⟩
  cases a with
  | token k reads =>
    obtain ⟨t, ht, hs⟩ := Option.bind_eq_some_iff.1 hs
    have hc := settle_commented ht
    cases as with
    | nil => cases hb
    | cons a as =>
      cases hb
      exact take_meets (hc.counts ▸ h) (hc.full hf) hs
  | glued k reads =>
    cases as with
    | nil => cases hb
    | cons a as =>
      cases hb
      simp only [Step.run] at hs
      split at hs
      · exact take_meets h hf hs
      · cases hs
  | comment g => cases hb; exact commented (comment_commented hs)
  | gap g => cases hb; exact commented (settle_commented hs)
  | question semicolon =>
    cases as with
    | nil => cases hb
    | cons a as =>
      cases hb
      obtain ⟨passed, rest, w, r, _, _, rfl⟩ := exists_of_question hs
      exact ⟨push_meets h .mark w r, hf.push .mark w r⟩
  | insertion operator => cases hb; exact commented (insertion_commented hs)
  | closing operator =>
    cases hb
    simp only [Step.run, Option.orElse_eq_orElse, Option.orElse_eq_or, Option.or_eq_some_iff] at hs
    rcases hs with hs | ⟨_, hs⟩
    · exact commented (insertion_commented hs)
    · cases hs
      exact ⟨h, hf⟩
  | opening =>
    cases hb
    cases hs
    refine ⟨?_, trivial, ?_⟩
    · cases as with
      | nil => exact (h.ne_nil rfl).elim
      | cons a as => exact ⟨Int.le_refl 0, h⟩
    · intro ts hts
      rcases List.mem_cons.1 hts with rfl | hts
      · exact hf.1
      · exact hf.2 ts hts
  | adopt n =>
    cases as with
    | nil => cases hb
    | cons a as =>
      cases hb
      obtain ⟨⟨us, vs⟩, hp, hs⟩ := Option.bind_eq_some_iff.1 hs
      cases hs
      have hn := splitLast_solid hp
      have hitems := splitLast_append hp
      have hfull := hf.1
      rw [← hitems, Tree.fullAll_append] at hfull
      refine ⟨⟨?_, h.head ?_⟩, hfull.1, ?_⟩
      · simp [hn]
      · change a - n - a ≤ (Tree.solid vs : Int) - Tree.solid s.items
        rw [← hitems, Tree.solid_append]
        omega
      · intro ts hts
        rcases List.mem_cons.1 hts with rfl | hts
        · exact hfull.2
        · exact hf.2 ts hts
  | finish k =>
    simp only [Step.run] at hs
    split at hs
    · cases hs
    · rename_i ts us houter
      cases hs
      cases as with
      | nil => cases hb
      | cons a as =>
        cases as with
        | nil => cases hb
        | cons b as =>
          simp only [Step.bounds] at hb
          split at hb
          · rename_i hk
            cases hb
            simp only [counts, houter, List.map_cons] at h ⊢
            refine ⟨h.2.head ?_, ⟨⟨?_, ?_⟩, hf.2 ts (by simp [houter])⟩, ?_⟩
            · rw [Tree.solid_cons, Tree.isComment_node, if_neg Bool.false_ne_true]
              omega
            · have := h.1
              rw [Tree.solid_reverse]
              omega
            · exact Tree.fullAll_reverse.2 hf.1
            · exact fun vs hvs => hf.2 vs (by simp [houter, hvs])
          · cases hb
  | recast r =>
    cases hb
    obtain ⟨us, hus, rfl⟩ := Option.map_eq_some_iff.1 hs
    obtain ⟨xs, t, u, ys, hts, rfl, hu⟩ := recastLast_alike hus
    have hsolid : Tree.solid (xs ++ u :: ys) = Tree.solid s.items := by
      simp [hts, Tree.solid_cons, hu.isComment]
    refine ⟨?_, ?_, hf.2⟩
    · simpa only [counts, hsolid] using h
    · have := hf.1
      rw [hts, Tree.fullAll_append] at this
      exact Tree.fullAll_append.2 ⟨this.1, hu.full this.2.1, this.2.2⟩
  | last p =>
    cases hb
    simp only [Step.run] at hs
    split at hs
    · cases hs; exact ⟨h, hf⟩
    · cases hs

/-- Where every part of a grammar gains as many trees as it is said to, every rule keeps its bounds. -/
theorem Rule.run_meets {σ : Type} {g : σ → Rule σ} {gain : σ → Int}
    (hg : ∀ p, (g p).bounds gain [0] = some [gain p]) {n : Nat} {r : Rule σ}
    (hb : r.bounds gain as = some as') (hs : r.run g n s = some s')
    (h : Meets base around as s.counts) (hf : s.AllFull) :
    Meets base around as' s'.counts ∧ s'.AllFull := by
  induction n generalizing base around r as as' s s' with
  | zero => cases hs
  | succ n ih =>
    cases r with
    | empty => cases hb; cases hs; exact ⟨h, hf⟩
    | step a => exact a.meets hb hs h hf
    | part p =>
      have hstart : Meets (Tree.solid s.items) (s.outer.map fun ts => (Tree.solid ts : Int)) [0]
          s.counts := ⟨by omega, rfl⟩
      have hp := ih (hg p) hs hstart hf
      refine ⟨?_, hp.2⟩
      cases as with
      | nil => exact (h.ne_nil rfl).elim
      | cons b bs =>
        cases hb
        obtain ⟨h₁, h₂⟩ := hp.1
        rw [counts, h₂]
        exact h.head (by omega)
    | seq r r' =>
      obtain ⟨bs, hb, hb'⟩ := Option.bind_eq_some_iff.1 hb
      simp only [run] at hs
      split at hs
      · rename_i t ht
        have hr := ih hb ht h hf
        exact ih hb' hs hr.1 hr.2
      · cases hs
    | alt r r' =>
      obtain ⟨bs, hb, hb'⟩ := Option.bind_eq_some_iff.1 hb
      obtain ⟨cs, hc, hb'⟩ := Option.bind_eq_some_iff.1 hb'
      obtain ⟨hwb, hwc⟩ := weaker_of_either hb'
      simp only [run] at hs
      split at hs
      · rename_i t ht
        cases hs
        have hr := ih hb ht h hf
        exact ⟨hr.1.weaken hwb, hr.2⟩
      · have hr := ih hc hs h hf
        exact ⟨hr.1.weaken hwc, hr.2⟩
    | many r =>
      obtain ⟨bs, hr, hw⟩ := Option.bind_eq_some_iff.1 hb
      split at hw
      · rename_i hw'
        cases hw
        simp only [run] at hs
        split at hs
        · rename_i t ht
          have hr := ih hr ht h hf
          split at hs
          · exact ih hb hs (hr.1.weaken hw') hr.2
          · cases hs
            exact ⟨hr.1.weaken hw', hr.2⟩
        · cases hs
          exact ⟨h, hf⟩
      · cases hw
    | present r =>
      cases hb
      simp only [run] at hs
      split at hs
      · cases hs; exact ⟨h, hf⟩
      · cases hs
    | absent r =>
      cases hb
      simp only [run] at hs
      split at hs
      · cases hs
      · cases hs; exact ⟨h, hf⟩

/-! ### The grammar -/

namespace Grammar
open Rule

/-- How many trees, comments apart, a part adds at least. -/
def gain : Part → Int
  | .continuation _ _ => 0
  | _ => 1

private theorem orElse_bounds {r r' : R} (h : r.bounds gain [0] = some [0])
    (h' : r'.bounds gain [0] = some [0]) : (r <|> r').bounds gain [0] = some [0] := by
  change (r.bounds gain [0]).bind (fun bs => (r'.bounds gain [0]).bind (Bounds.either bs)) = some [0]
  rw [h, h']
  rfl

private theorem anyOf_bounds {rs : List R} (hne : rs ≠ [])
    (h : ∀ r ∈ rs, r.bounds gain [0] = some [0]) : (anyOf rs).bounds gain [0] = some [0] := by
  fun_induction anyOf rs with
  | case1 => exact (hne rfl).elim
  | case2 r => exact h r (by simp)
  | case3 r rs hrs ih =>
    exact orElse_bounds (h r (by simp)) (ih hrs fun r hr => h r (List.mem_cons_of_mem _ hr))

private theorem binary_bounds (c : Ctx) (level : Nat) :
    ∀ r ∈ binary c level, r.bounds gain [0] = some [0] := by
  have hlevels : ∀ l ∈ binaryLevels,
      (behind l.1 (wrap .binary 1 (anyOf (l.2.2.map operator) ++
        part (.expression c l.2.1)))).bounds gain [0] = some [0] := by
    intro l hl
    fin_cases hl <;> rfl
  unfold binary
  simp only
  refine List.forall_mem_append.2 ⟨List.forall_mem_map.2 fun l hl => ?_, ?_⟩
  · exact hlevels l (List.mem_filter.1 hl).1
  · split
    · refine List.forall_mem_cons.2 ⟨rfl, List.forall_mem_cons.2 ⟨?_, by simp⟩⟩
      split
      · split <;> rfl
      · rfl
    · simp

private theorem continuation_bounds (c : Ctx) (level : Nat) :
    (continuation c level).bounds gain [0] = some [0] := by
  have haccess : (behind constructorLevel (anyOf (access c))).bounds gain [0] = some [0] := by
    obtain ⟨_, _, noCall⟩ := c
    cases noCall <;> rfl
  refine orElse_bounds rfl (anyOf_bounds (by simp) ?_)
  simp only [List.forall_mem_append, List.forall_mem_cons]
  refine ⟨⟨⟨⟨haccess, ?_⟩, ?_⟩, ?_⟩, binary_bounds c level⟩
  · split
    · exact List.forall_mem_cons.2 ⟨rfl, List.forall_mem_singleton.2 rfl⟩
    · simp
  · split
    · exact List.forall_mem_singleton.2 rfl
    · simp
  · split
    · exact List.forall_mem_singleton.2 rfl
    · simp

/-- Every part of the grammar adds the trees that it is said to add. -/
theorem part_bounds (p : Part) : (grammar p).bounds gain [0] = some [gain p] := by
  cases p with
  | continuation c level => exact continuation_bounds c level
  | statement inCase => cases inCase <;> rfl
  | block operator => rfl
  | expression c level => rfl
  | expressions c => rfl
  | functionForm r => cases r <;> rfl
  | classForm r => cases r <;> rfl
  | _ => rfl

theorem program_bounds : program.bounds gain [0] = some [0] := by rfl

end Grammar

/-- The tree of a source is a program, and no node in it is empty. -/
theorem parse_full {t : Text} {tree : Tree} (h : parse t = some tree) :
    ∃ ts, tree = .node .program ts ∧ Tree.FullAll ts := by
  unfold parse at h
  split at h
  · rename_i s hs
    simp only at h
    split at h
    · cases h
      have hstart : Meets 0 [] [0] (ofText t).counts := ⟨Int.le_refl 0, rfl⟩
      have hf : (ofText t).AllFull := ⟨trivial, fun ts hts => by cases hts⟩
      have hf' := (Rule.run_meets Grammar.part_bounds Grammar.program_bounds hs hstart hf).2
      exact ⟨_, rfl, Tree.fullAll_reverse.2 hf'.1⟩
    · cases h
  · cases h

end ServerSplit.Js
