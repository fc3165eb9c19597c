import ServerSplit.Proofs.Run

/-! Files do not meet in a pass. What becomes of a file is what becomes of it alone, in whatever company and
order it comes; they only meet in the registry, and there only where identifiers clash. -/
namespace ServerSplit

open Js (Tree)
open Js.Tree
open Directive

namespace Directive

/-- Where any function is marked, an outermost one is. -/
theorem topmost_eq_nil_iff {directive : Text} {tree : Tree} :
    topmost directive tree = [] ↔ markers directive tree = [] := by
  have hmarkers : markers directive tree = [] ↔ within directive tree = [] := by
    have hperm := markers_perm directive tree
    exact ⟨fun h => (h ▸ hperm).symm.eq_nil, fun h => (h ▸ hperm).eq_nil⟩
  rw [hmarkers]
  constructor
  · intro h
    rw [within_eq, h]
    rfl
  · intro h
    refine List.eq_nil_iff_forall_not_mem.2 fun f hf => ?_
    obtain ⟨hholds, hmarked⟩ := holds_of_outermost hf
    simp only [isMarked, Bool.and_eq_true, Bool.not_eq_true', List.isEmpty_eq_false_iff] at hmarked
    have hown := List.flatMap_eq_nil_iff.1 h f (mem_collect.2 ⟨hholds, hmarked.1⟩)
    exact hmarked.2 (List.map_eq_nil_iff.1 hown)

end Directive

namespace Pass

/-- Whether a pass looks at a file and finds an outermost marked function in it. -/
def holdsMarked (c : Config) (a : Artifact) : Bool :=
  c.accepts a.path && (Js.parse a.source).any fun tree => !(topmost c.directive tree).isEmpty

theorem takes_ne_nil_iff {c : Config} {a : Artifact} (hsound : c.accepts a.path = true → isSound c a = true) :
    takes c a ≠ [] ↔ holdsMarked c a = true := by
  by_cases haccepts : c.accepts a.path = true
  · have hunmarked := isUnmarked_iff_takes haccepts (hsound haccepts)
    obtain ⟨tree, hparse, _⟩ := isSound_iff.1 (hsound haccepts)
    rw [ne_eq, ← hunmarked]
    simp [isUnmarked, holdsMarked, haccepts, hparse]
  · simp [takes_of_not_accepts haccepts, holdsMarked, haccepts]

theorem runPass_alone {c : Config} {as : List Artifact} {out : Output} (hlenient : c.strictDuplicates = false)
    (h : runPass c as = .ok out) {a : Artifact} (ha : a ∈ as) :
    ∃ alone, runPass c [a] = .ok alone ∧ alone.artifacts = [rewrite c a] := by
  have hsound := (runPass_yields h).sound a ha
  obtain ⟨alone, halone⟩ := runPass_lenient hlenient (List.forall_mem_singleton.2 hsound)
  exact ⟨alone, halone, (runPass_yields halone).artifacts⟩

/-- The registry does not turn on the order of the files whose functions have identifiers of their own. -/
theorem registry_perm {c : Config} {as bs : List Artifact} (h : as.Perm bs)
    (hids : ((as.flatMap (takes c)).map (·.id)).Nodup) :
    Registry.empty.addAll (records c as) = Registry.empty.addAll (records c bs) := by
  have hrecords : (records c as).map (·.id) = (as.flatMap (takes c)).map (·.id) := by
    simp only [records, List.map_flatMap, List.map_map]
    rfl
  exact Registry.addAll_perm (h.flatMap_right _) (hrecords ▸ hids)

/-- The files that a pass gives out are those that it was given, in their order, each rewritten as a pass
over it alone rewrites it. The rewritten ones are those that hold an outermost marked function. Files in
another order are given out in that order, and where all identifiers differ the registry and the module are
the same. -/
theorem runPass_independent {c : Config} {as : List Artifact} {out : Output}
    (hlenient : c.strictDuplicates = false) (h : runPass c as = .ok out) :
    out.artifacts = as.map (rewrite c) ∧ out.artifacts.map (·.path) = as.map (·.path) ∧
      (∀ a ∈ as, ∃ alone, runPass c [a] = .ok alone ∧ alone.artifacts = [rewrite c a]) ∧
      (∀ a ∈ as, (c.accepts a.path = true → ∀ tree, Js.parse a.source = some tree →
        markers c.directive tree = []) → rewrite c a = a) ∧
      out.rewritten = (as.filter (holdsMarked c)).map (·.path) ∧
      out.scanned = as.countP (c.accepts ·.path) ∧
      ∀ bs, as.Perm bs → ∃ out', runPass c bs = .ok out' ∧ out'.artifacts = bs.map (rewrite c) ∧
        out'.rewritten.Perm out.rewritten ∧ out'.scanned = out.scanned ∧
        (((as.flatMap (takes c)).map (·.id)).Nodup → out'.registry = out.registry ∧ out'.sdk = out.sdk) := by
  have hyields := runPass_yields h
  have htakes : ∀ a ∈ as, takes c a ≠ [] ↔ holdsMarked c a = true := fun a ha =>
    takes_ne_nil_iff (hyields.sound a ha)
  refine ⟨hyields.artifacts, ?_, fun a ha => runPass_alone hlenient h ha, fun a ha hnone => ?_, ?_,
    hyields.scanned, fun bs hperm => ?_⟩
  · rw [hyields.artifacts, List.map_map]
    rfl
  · refine rewrite_of_takes_eq_nil (by_contra fun hsome => ?_)
    obtain ⟨haccepts, hany⟩ := Bool.and_eq_true_iff.1 ((htakes a ha).1 hsome)
    cases hparse : Js.parse a.source with
    | none => simp [hparse] at hany
    | some tree =>
      have := topmost_eq_nil_iff.2 (hnone haccepts tree hparse)
      simp [hparse, this] at hany
  · rw [hyields.rewritten]
    exact congrArg _ (List.filter_congr fun a ha =>
      Bool.eq_iff_iff.2 (decide_eq_true_iff.trans (htakes a ha)))
  · obtain ⟨out', h'⟩ := runPass_lenient hlenient fun b hb => hyields.sound b (hperm.mem_iff.2 hb)
    have hyields' := runPass_yields h'
    refine ⟨out', h', hyields'.artifacts, ?_, ?_, fun hids => ?_⟩
    · rw [hyields'.rewritten, hyields.rewritten]
      exact ((hperm.filter _).map _).symm
    · rw [hyields'.scanned, hyields.scanned, hperm.countP_eq]
    · have hregistry : out'.registry = out.registry := by
        rw [hyields'.registry, hyields.registry, registry_perm hperm hids]
      exact ⟨hregistry, by rw [hyields'.sdk, hyields.sdk, hregistry]⟩

private def firstFile : Artifact := ⟨"a.js".toList, "function f()\x7b'd'\x7d".toList⟩

private def secondFile : Artifact := ⟨"b.js".toList, "function f()\x7b'd'\x7d".toList⟩

/-- Two files in both orders. -/
theorem runPass_independent_pair :
    ∃ out out', runPass { directive := ['d'] } [firstFile, secondFile] = .ok out ∧
      runPass { directive := ['d'] } [secondFile, firstFile] = .ok out' ∧
      out'.artifacts = out.artifacts.reverse ∧ out'.registry = out.registry ∧ out'.sdk = out.sdk := by
  have hfiles : (∀ a ∈ [firstFile, secondFile], isSound { directive := ['d'] } a = true) ∧
      (([firstFile, secondFile].flatMap (takes { directive := ['d'] })).map (·.id)).Nodup := by
    decide +kernel
  obtain ⟨hsound, hids⟩ := hfiles
  obtain ⟨out, h⟩ := runPass_lenient (c := { directive := ['d'] }) rfl fun a ha _ => hsound a ha
  obtain ⟨hartifacts, _, _, _, _, _, hperms⟩ := runPass_independent rfl h
  obtain ⟨out', h', hartifacts', _, _, hregistry⟩ := hperms _ (.swap _ _ _)
  refine ⟨out, out', h, h', ?_, hregistry hids⟩
  rw [hartifacts, hartifacts']
  rfl

end Pass
end ServerSplit
