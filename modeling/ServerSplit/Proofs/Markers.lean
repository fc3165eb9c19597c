import Mathlib.Data.List.Pairwise
import ServerSplit.Pass
import ServerSplit.Proofs.Js.Layout

/-! The order of markers. Sorted by their literals and then by their functions, the markers of a source
are those of one function after another, an outer function before those inside it. -/
namespace ServerSplit

open Js (Tree)
open Js.Tree

/-! ### Sorting twice -/

private theorem not_pair_sublist {α : Type} {l : List α} (h : l.Nodup) {a b : α}
    (hab : List.Sublist [a, b] l) : ¬ List.Sublist [b, a] l := by
  induction l with
  | nil => cases hab
  | cons c l ih =>
    obtain ⟨hc, hl⟩ := List.nodup_cons.1 h
    intro hba
    cases hab with
    | cons _ hab =>
      cases hba with
      | cons _ hba => exact ih hl hab hba
      | cons_cons _ hba => exact hc (hab.subset (by simp))
    | cons_cons _ hab =>
      cases hba with
      | cons _ hba => exact hc (hba.subset (by simp))
      | cons_cons _ hba => exact hc (hab.subset (by simp))

/-- A list sorted by `le₂`, and by `le₁` where `le₂` does not tell its elements apart, is what comes of
it when it is sorted by the one and then by the other. -/
private theorem mergeSort_mergeSort {α : Type} {l : List α} {le₁ le₂ : α → α → Bool}
    (trans₁ : ∀ a b c, le₁ a b → le₁ b c → le₁ a c) (total₁ : ∀ a b, le₁ a b || le₁ b a)
    (trans₂ : ∀ a b c, le₂ a b → le₂ b c → le₂ a c) (total₂ : ∀ a b, le₂ a b || le₂ b a)
    (h : l.Pairwise fun a b => le₂ a b ∧ (le₂ b a → le₁ a b ∧ ¬ le₁ b a)) :
    (l.mergeSort le₁).mergeSort le₂ = l := by
  have hperm : ((l.mergeSort le₁).mergeSort le₂).Perm l :=
    (List.mergeSort_perm _ _).trans (List.mergeSort_perm _ _)
  have hnodup : l.Nodup := by
    refine h.imp fun {a b} hab he => ?_
    subst he
    exact (hab.2 hab.1).2 (hab.2 hab.1).1
  have hsorted := List.pairwise_mergeSort trans₂ total₂ (l.mergeSort le₁)
  -- Whichever of two elements is first in `l` is first after sorting.
  have hkeeps : ∀ {a b : α}, List.Sublist [a, b] l → le₂ a b → le₁ a b →
      List.Sublist [a, b] ((l.mergeSort le₁).mergeSort le₂) := fun hab h₂ h₁ =>
    List.pair_sublist_mergeSort trans₂ total₂ h₂ (List.pair_sublist_mergeSort trans₁ total₁ h₁ hab)
  have hpairs : l.Pairwise fun a b => List.Sublist [a, b] l ∨ List.Sublist [b, a] l :=
    List.pairwise_iff_forall_sublist.2 .inl
  refine List.Perm.eq_of_pairwise (fun a b _ _ hab hba => ?_) ?_ h hperm
  · exact ((hab.2 hba.1).2 (hba.2 hab.1).1).elim
  · refine List.pairwise_iff_forall_sublist.2 fun {a b} hab => ?_
    have hnodup' := hperm.nodup_iff.2 hnodup
    have hne : a ≠ b := by
      rintro rfl
      exact not_pair_sublist hnodup' hab hab
    have ha : a ∈ l := hperm.mem_iff.1 (hab.subset (by simp))
    have hb : b ∈ l := hperm.mem_iff.1 (hab.subset (by simp))
    have hle := List.pairwise_iff_forall_sublist.1 hsorted hab
    have : Std.Symm fun a b => List.Sublist [a, b] l ∨ List.Sublist [b, a] l := ⟨fun _ _ => Or.symm⟩
    rcases hpairs.forall ha hb hne with hl | hl
    · exact List.pairwise_iff_forall_sublist.1 h hl
    · obtain ⟨h₂, h₁⟩ := List.pairwise_iff_forall_sublist.1 h hl
      exact (not_pair_sublist hnodup' hab (hkeeps hl h₂ (h₁ hle).1)).elim

/-! ### The literals of one function -/

theorem holds_stringLiteral {t l : Tree} (h : t.stringLiteral? = some l) : Holds t l := by
  unfold stringLiteral? at h
  split at h
  · rename_i ts
    obtain ⟨hl, _⟩ := Option.filter_eq_some_iff.1 h
    exact .child (List.mem_of_find?_eq_some hl) (.refl l)
  · cases h

theorem holds_of_prologue {ts : List Tree} {l : Tree} (h : l ∈ prologue ts) : ∃ t ∈ ts, Holds t l := by
  induction ts with
  | nil => cases h
  | cons t ts ih =>
    have htail (h : l ∈ prologue ts) : ∃ u ∈ t :: ts, Holds u l := by
      obtain ⟨u, hu, hl⟩ := ih h
      exact ⟨u, by simp [hu], hl⟩
    unfold prologue at h
    split at h
    · exact htail h
    · split at h
      · rename_i l' hl'
        rcases List.mem_cons.1 h with rfl | h
        · exact ⟨t, by simp, holds_stringLiteral hl'⟩
        · exact htail h
      · cases h

/-- The strings that lead a list of statements stand one behind another. -/
theorem prologue_pairwise {n : Nat} {ts : List Tree} (h : PlacedAll n ts) :
    (prologue ts).Pairwise fun a b => a.start < b.start := by
  induction ts generalizing n with
  | nil => exact .nil
  | cons t ts ih =>
    obtain ⟨ht, hts⟩ := placedAll_cons h
    unfold prologue
    split
    · exact ih hts
    · split
      · rename_i l hl
        refine List.pairwise_cons.2 ⟨fun l' hl' => ?_, ih hts⟩
        obtain ⟨u, hu, hul⟩ := holds_of_prologue hl'
        have hb := ht.bounds (holds_stringLiteral hl)
        have := hts.le_start hu hul
        omega
      · exact .nil

theorem functionBody_placed {n : Nat} {f : Tree} (h : Placed n f) :
    ∃ m, PlacedAll m f.functionBody ∧ ∀ t ∈ f.functionBody, Holds f t := by
  unfold functionBody
  split
  · rename_i b hb
    have hb := List.mem_of_find?_eq_some hb
    cases f with
    | leaf t => cases hb
    | node k ts =>
      cases b with
      | leaf t => exact ⟨0, ⟨trivial, trivial⟩, fun t ht => by cases ht⟩
      | node k' us =>
        obtain ⟨m, _, hm⟩ := h.holds (.child hb (.refl _))
        exact ⟨m, hm.children, fun t ht => .child hb (.child ht (.refl t))⟩
  · exact ⟨0, ⟨trivial, trivial⟩, fun t ht => by cases ht⟩

/-! ### The markers of a source -/

namespace Directive

/-- The markers of one function. -/
def own (directive : Text) (f : Tree) : List Marker :=
  (inPrologue directive f.functionBody).map fun l => ⟨l, f⟩

def isMarked (directive : Text) (f : Tree) : Bool :=
  f.isFunction && !(inPrologue directive f.functionBody).isEmpty

/-- The markers in a row of trees, function by function. -/
def inside (directive : Text) (ts : List Tree) : List Marker :=
  (collectOf isFunction ts).flatMap (own directive)

theorem owner_of_own {directive : Text} {f : Tree} {m : Marker} (h : m ∈ own directive f) :
    m.owner = f := by
  obtain ⟨l, _, rfl⟩ := List.mem_map.1 h
  rfl

theorem own_pairwise {n : Nat} {directive : Text} {f : Tree} (h : Placed n f) :
    (own directive f).Pairwise fun a b => a.literal.start < b.literal.start := by
  obtain ⟨m, hm, _⟩ := functionBody_placed h
  exact List.pairwise_map.2 ((prologue_pairwise hm).sublist List.filter_sublist)

theorem markers_sorted {n : Nat} (k : Js.Kind) {ts : List Tree} {directive : Text}
    (hk : (Js.Tree.node k ts).isFunction = false) (h : PlacedAll n ts) :
    (markers directive (.node k ts)).mergeSort Pass.outerFirst = inside directive ts := by
  have hfunctions : (Js.Tree.node k ts).functions = collectOf isFunction ts := by
    simp [functions, collect, hk]
  unfold markers
  rw [hfunctions]
  refine mergeSort_mergeSort (by simp; omega) (by simp; omega)
    (by simp [Pass.outerFirst]; omega) (by simp [Pass.outerFirst]; omega) ?_
  have hspan : ∀ f ∈ collectOf isFunction ts, ∃ m, Placed m f := by
    intro f hf
    obtain ⟨t, ht, hf, _⟩ := mem_collectOf.1 hf
    obtain ⟨m, _, hm⟩ := h.placed_of_mem ht
    obtain ⟨m', _, hm'⟩ := hm.holds hf
    exact ⟨m', hm'⟩
  refine List.pairwise_flatMap.2 ⟨fun f hf => ?_, ?_⟩
  · obtain ⟨m, hm⟩ := hspan f hf
    refine (own_pairwise hm).imp_of_mem fun {a b} ha hb hab => ?_
    simp only [Pass.outerFirst, owner_of_own ha, owner_of_own hb]
    simp
    omega
  · refine h.functions_pairwise.imp_of_mem fun {f g} hf hg hfg a ha b hb => ?_
    obtain ⟨m, hm⟩ := hspan f hf
    have := hm.start_lt_stop
    simp only [Pass.outerFirst, owner_of_own ha, owner_of_own hb]
    rcases hfg with hfg | ⟨h₁, h₂, h₃⟩
    · simp
      omega
    · simp
      omega

end Directive
end ServerSplit
