import ServerSplit.Proofs.Run

/-! Which of the marked functions of a file are taken out, and what becomes of the other markers. The
functions are those inside no other marked one, and each marker beyond theirs is reported with the one
function that it lies in. -/
namespace ServerSplit

open Js (Tree)
open Js.Tree

namespace Directive

/-- A marked function that is inside no other one. -/
def IsOutermost (ms : List Marker) (f : Tree) : Prop :=
  (∃ m ∈ ms, m.owner = f) ∧ ∀ m ∈ ms, ¬ Inside m.owner f

/-- The marked functions of a tree are the owners of its markers. -/
theorem mem_collect_isMarked {directive : Text} {tree f : Tree} :
    f ∈ tree.collect (isMarked directive) ↔ ∃ m ∈ markers directive tree, m.owner = f := by
  have howner : (∃ m ∈ markers directive tree, m.owner = f) ↔
      f ∈ tree.functions ∧ own directive f ≠ [] := by
    constructor
    · rintro ⟨m, hm, rfl⟩
      obtain ⟨g, hg, hmg⟩ := List.mem_flatMap.1 ((markers_perm directive tree).mem_iff.1 hm)
      rw [owner_of_own hmg]
      exact ⟨hg, List.ne_nil_of_mem hmg⟩
    · rintro ⟨hf, hown⟩
      obtain ⟨m, hm⟩ := List.exists_mem_of_ne_nil _ hown
      exact ⟨m, (markers_perm directive tree).mem_iff.2 (List.mem_flatMap.2 ⟨f, hf, hm⟩), owner_of_own hm⟩
  rw [howner, mem_collect, functions, mem_collect]
  simp [isMarked, own, and_assoc]

/-- The functions that are taken out are the outermost marked ones. -/
theorem mem_topmost_iff {source directive : Text} {tree f : Tree} (h : Js.parse source = some tree) :
    f ∈ topmost directive tree ↔ IsOutermost (markers directive tree) f := by
  have hmarked : ∀ u, isMarked directive u = true → u.isFunction = true := fun u hu =>
    (Bool.and_eq_true_iff.1 hu).1
  obtain ⟨ts, b, rfl, hplaced, _⟩ := Js.parse_placed h
  have hiff : f ∈ topmost directive (.node .program ts) ↔
      f ∈ (Js.Tree.node .program ts).collect (isMarked directive) ∧
        ∀ g ∈ (Js.Tree.node .program ts).collect (isMarked directive), ¬ Inside g f :=
    hplaced.mem_outermostOf_iff hmarked
  rw [hiff, IsOutermost, mem_collect_isMarked]
  refine and_congr_right fun _ => ⟨fun hnone m hm => ?_, fun hnone g hg => ?_⟩
  · exact hnone _ (mem_collect_isMarked.2 ⟨m, hm, rfl⟩)
  · obtain ⟨m, hm, rfl⟩ := mem_collect_isMarked.1 hg
    exact hnone m hm

/-- The markers of functions beyond the first one of each, with what is taken out in their place. -/
def absorbed (directive : Text) : List Tree → List Extracted → List (Marker × Extracted)
  | f :: fs, x :: xs => ((within directive f).drop 1).map (·, x) ++ absorbed directive fs xs
  | _, _ => []

end Directive

namespace Pass

open Directive

def nestings (ds : List Diagnostic) : List Diagnostic := ds.filter (·.kind = .nestedDirective)

@[simp] theorem nestings_append (ds es : List Diagnostic) :
    nestings (ds ++ es) = nestings ds ++ nestings es := by simp [nestings]

theorem nestings_nested (path source : Text) (ms : List Marker) (line : Nat) :
    nestings (ms.map (nested path source · line)) = ms.map (nested path source · line) :=
  List.filter_eq_self.2 fun d hd => by simp [kind_of_mem_nested hd]

theorem register_nestings (p : Pass) (path : Text) (x : Extracted) :
    nestings (p.register path x).1.diagnostics = nestings p.diagnostics :=
  register_filter (by decide) p path x

theorem takeOne_nestings {path source : Text} {p q : Pass} {f : Tree} {x : Extracted}
    (h : takeOne path source p f = (q, .ok x)) :
    nestings q.diagnostics =
      nestings p.diagnostics ++ ((within p.config.directive f).drop 1).map (nested path source · x.line) := by
  unfold takeOne at h
  split at h
  · cases h
  · rename_i y hy
    have hregister := register_nestings p path y
    split at h
    · cases h
    · rename_i q' u hr
      cases h
      rw [hr] at hregister
      simp only [reportAll, nestings_append, nestings_nested, hregister]

/-- The reports of a file are of the markers that its functions absorb. -/
theorem takeEach_nestings {path source : Text} {p q : Pass} {fs : List Tree} {xs : List Extracted}
    (h : takeEach path source p fs = (q, .ok xs)) :
    nestings q.diagnostics = nestings p.diagnostics ++
      (absorbed p.config.directive fs xs).map fun e => nested path source e.1 e.2.line := by
  induction fs generalizing p xs with
  | nil =>
    cases h
    simp [absorbed]
  | cons f fs ih =>
    obtain ⟨p', x, ys, hx, hys, rfl⟩ := takeEach_cons h
    rw [ih hys, takeOne_nestings hx, (takeOne_adds hx).config, absorbed, List.map_append, List.map_map,
      List.append_assoc]
    rfl

/-- The functions that are taken out, and what is taken out of them. -/
abbrev TakenFrom (path source : Text) (fs : List Tree) (xs : List Extracted) : Prop :=
  List.Forall₂ (fun f x => Extracted.ofFunction? path source f = some x) fs xs

variable {path source : Text} {fs : List Tree} {xs : List Extracted} {directive : Text}

theorem TakenFrom.ranges (endpoint : Text) (h : TakenFrom path source fs xs) :
    (xs.map (edit endpoint)).map Edit.range = fs.map span := by
  induction h with
  | nil => rfl
  | cons hx _ ih =>
    obtain ⟨hstart, hstop⟩ := span_ofFunction hx
    rw [List.map_cons, List.map_cons, List.map_cons, ih]
    simp [edit, Edit.range, span, hstart, hstop]

/-- A marker that a function absorbs lies in it. -/
theorem TakenFrom.absorbed_inside (h : TakenFrom path source fs xs)
    (hfs : ∀ f ∈ fs, (∃ n, Placed n f) ∧ isMarked directive f = true) {e : Marker × Extracted}
    (he : e ∈ absorbed directive fs xs) :
    e.2 ∈ xs ∧ encloses e.2 e.1.owner = true ∧ e.1.owner.start < e.1.owner.stop := by
  induction h with
  | nil => cases he
  | @cons f x fs xs hx _ ih =>
    rcases List.mem_append.1 he with he | he
    · obtain ⟨m, hm, rfl⟩ := List.mem_map.1 he
      obtain ⟨⟨n, hplaced⟩, hmarked⟩ := hfs f (by simp)
      obtain ⟨first, ms, hwithin, _, hms⟩ := within_cons hplaced hmarked
      obtain ⟨hstart, hstop⟩ := span_ofFunction hx
      rw [hwithin] at hm
      obtain ⟨hle, hle', hlt⟩ := hms m hm
      exact ⟨by simp, by simp [encloses, hstart, hstop, hle, hle'], hlt⟩
    · obtain ⟨hmem, hin⟩ := ih (fun g hg => hfs g (by simp [hg])) he
      exact ⟨by simp [hmem], hin⟩

/-- Every marker in functions is the first one of its function or is absorbed. -/
theorem TakenFrom.exists_firsts (h : TakenFrom path source fs xs)
    (hfs : ∀ f ∈ fs, (∃ n, Placed n f) ∧ isMarked directive f = true) :
    ∃ firsts : List Marker, firsts.map (·.owner) = fs ∧
      (firsts ++ (absorbed directive fs xs).map Prod.fst).Perm (fs.flatMap (within directive)) := by
  induction h with
  | nil => exact ⟨[], rfl, .refl _⟩
  | @cons f x fs xs hx _ ih =>
    obtain ⟨firsts, howners, hperm⟩ := ih fun g hg => hfs g (by simp [hg])
    obtain ⟨⟨n, hplaced⟩, hmarked⟩ := hfs f (by simp)
    obtain ⟨first, ms, hwithin, howner, _⟩ := within_cons hplaced hmarked
    refine ⟨first :: firsts, by rw [List.map_cons, howner, howners], ?_⟩
    have hms : (((within directive f).drop 1).map (·, x)).map Prod.fst = ms := by
      simp [hwithin, Function.comp_def]
    rw [absorbed, List.map_append, hms, List.flatMap_cons, hwithin, List.cons_append, List.cons_append]
    refine .cons first ?_
    exact (List.perm_append_comm_assoc _ _ _).trans (hperm.append_left ms)

/-- How the markers of a file are shared out: the outermost marked functions are taken out, one behind
another, and each further marker is among `inner`, with the one of them that it lies in. -/
structure SharedOut (c : Config) (a : Artifact) (tree : Tree) (taken : List Extracted)
    (inner : List (Marker × Extracted)) : Prop where
  outermost : ∀ f, f ∈ topmost c.directive tree ↔ IsOutermost (markers c.directive tree) f
  takenFrom : TakenFrom a.path a.source (topmost c.directive tree) taken
  apart : taken.Pairwise fun x y => x.stop ≤ y.start
  nonempty : ∀ x ∈ taken, x.start < x.stop
  /-- Made from the last to the first, no edit reaches into one that was made before it. -/
  clear : (Edit.backward (taken.map (edit c.endpoint))).Pairwise fun e e' => e'.stop ≤ e.start
  shared : ∃ firsts : List Marker, firsts.map (·.owner) = topmost c.directive tree ∧
    (firsts ++ inner.map Prod.fst).Perm (markers c.directive tree)
  owner : ∀ e ∈ inner, e.2 ∈ taken ∧ ∀ x ∈ taken, encloses x e.1.owner = true ↔ x = e.2
  count : (markers c.directive tree).length = taken.length + inner.length

theorem TakenFrom.sharedOut {c : Config} {a : Artifact} {tree : Tree} (hparse : Js.parse a.source = some tree)
    (h : TakenFrom a.path a.source (topmost c.directive tree) xs) :
    SharedOut c a tree xs (absorbed c.directive (topmost c.directive tree) xs) := by
  have hplaced := topmost_placed c.directive hparse
  have hapart : Text.Apart 0 ((xs.map (edit c.endpoint)).map Edit.range) := by
    rw [h.ranges]
    exact (topmost_fits c.directive hparse).1
  have hspans : xs.Pairwise fun x y => x.start < x.stop ∧ x.stop ≤ y.start :=
    List.pairwise_map.1 (List.pairwise_map.1 hapart.pairwise)
  have hsides : xs.Pairwise fun x y => x.stop ≤ y.start ∨ y.stop ≤ x.start := hspans.imp fun h => .inl h.2
  have hsymm : Std.Symm fun x y : Extracted => x.stop ≤ y.start ∨ y.stop ≤ x.start := ⟨fun _ _ => Or.symm⟩
  obtain ⟨firsts, howners, hperm⟩ := h.exists_firsts hplaced
  have hshared : (firsts ++ (absorbed c.directive (topmost c.directive tree) xs).map Prod.fst).Perm
      (markers c.directive tree) := by
    rw [← within_eq] at hperm
    exact hperm.trans (markers_perm _ _).symm
  refine ⟨fun f => mem_topmost_iff hparse, h, hspans.imp And.right, fun x hx => ?_,
    Edit.backward_clear (.refl _) hapart, ⟨firsts, howners, hshared⟩, fun e he => ?_, ?_⟩
  · exact hapart.lt (List.mem_map_of_mem (List.mem_map_of_mem hx))
  · obtain ⟨hmem, hin, hlt⟩ := h.absorbed_inside hplaced he
    refine ⟨hmem, fun x hx => ⟨fun hx' => by_contra fun hne => ?_, fun hx' => hx' ▸ hin⟩⟩
    -- Two functions that stand apart have no room for one inside both.
    have := hsides.forall hx hmem hne
    simp only [encloses, Bool.and_eq_true, decide_eq_true_eq] at hx' hin
    omega
  · have hlength := hshared.length_eq
    have hfirsts := congrArg List.length howners
    rw [List.length_map] at hfirsts
    rw [List.length_append, List.length_map, hfirsts, h.length_eq] at hlength
    exact hlength.symm

/-- When a file is rewritten without an error, its outermost marked functions are taken out, and each
further marker is reported once, as part of the function around it. -/
theorem process_shares {p q : Pass} {a : Artifact} {r : Option Text} (h : p.process a = (q, .ok r)) :
    ∃ tree taken inner, Js.parse a.source = some tree ∧ SharedOut p.config a tree taken inner ∧
      r = (if taken = [] then none
        else some (Edit.applyAll a.source (taken.map (edit p.config.endpoint)))) ∧
      nestings q.diagnostics =
        nestings p.diagnostics ++ inner.map fun e => nested a.path a.source e.1 e.2.line := by
  obtain ⟨tree, xs, hparse, htake, hr⟩ := exists_of_process h
  refine ⟨tree, xs, _, hparse, TakenFrom.sharedOut hparse (forall₂_of_takeEach htake), hr, ?_⟩
  rw [takeEach_nestings htake]
  have horphans : nestings (p.reportOrphans a tree).diagnostics = nestings p.diagnostics :=
    filter_reportAll p fun d hd => by simp [kind_of_mem_orphans hd]
  rw [horphans]
  rfl

private def nestedFile : Artifact :=
  ⟨"a.js".toList, "function f(a=function g()\x7b'd'\x7d)\x7b'd';'d'\x7d".toList⟩

/-- A function with another one in its parameters, and with its marker twice. -/
theorem process_shares_nested :
    ∃ q r, ({ config := { directive := ['d'] } } : Pass).process nestedFile = (q, .ok r) ∧
      (nestings q.diagnostics).length = 2 := by
  obtain ⟨q, r, h⟩ := exists_ok_of_isOk (p := { config := { directive := ['d'] } }) (a := nestedFile)
    (by decide +kernel)
  obtain ⟨tree, taken, inner, hparse, hshared, _, hreports⟩ := process_shares h
  have hcounts : (Js.parse nestedFile.source).map (fun tree =>
      ((within ['d'] tree).length, (topmost ['d'] tree).length)) = some (3, 1) := by
    decide +kernel
  rw [hparse] at hcounts
  obtain ⟨hmarkers, htaken⟩ := Prod.mk.inj (Option.some.inj hcounts)
  have hcount := hshared.count
  rw [(markers_perm _ _).length_eq, hmarkers, ← hshared.takenFrom.length_eq, htaken] at hcount
  refine ⟨q, r, h, ?_⟩
  rw [hreports, List.length_append, List.length_map]
  change 0 + inner.length = 2
  omega

end Pass
end ServerSplit
