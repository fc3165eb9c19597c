import ServerSplit.Proofs.Markers

/-! What taking out the functions of a file comes to. The functions that are taken out are the outermost
marked ones, one after another, and every other marker is reported as part of the function around it. -/
namespace ServerSplit

open Js (Tree)
open Js.Tree

namespace Directive

/-- The markers of a tree, function by function. -/
def within (directive : Text) (t : Tree) : List Marker := t.functions.flatMap (own directive)

/-- The marked functions of a tree that are inside no other. -/
def topmost (directive : Text) (t : Tree) : List Tree := t.outermost (isMarked directive)

theorem markers_perm (directive : Text) (t : Tree) : (markers directive t).Perm (within directive t) :=
  List.mergeSort_perm _ _

theorem own_eq_nil {directive : Text} {f : Tree} (hf : f.isFunction = true)
    (h : isMarked directive f = false) : own directive f = [] := by
  simpa [isMarked, hf, own] using h

mutual

theorem within_eq (directive : Text) (t : Tree) :
    within directive t = (topmost directive t).flatMap (within directive) := by
  cases t with
  | leaf t => simp [within, topmost, functions, collect, outermost, isMarked, isFunction, functionKind?]
  | node k ts =>
    unfold topmost outermost
    split
    · simp
    · rename_i h
      rw [← inside_eq directive ts]
      unfold within functions collect
      split
      · rename_i hf
        rw [List.flatMap_cons, own_eq_nil hf (by simpa using h), List.nil_append]
        rfl
      · rfl

/-- The markers of a row of trees are those in its outermost marked functions. -/
theorem inside_eq (directive : Text) (ts : List Tree) :
    inside directive ts = (outermostOf (isMarked directive) ts).flatMap (within directive) := by
  cases ts with
  | nil => rfl
  | cons t ts =>
    rw [outermostOf, List.flatMap_append, ← inside_eq directive ts]
    have := within_eq directive t
    unfold topmost at this
    rw [← this]
    simp [inside, collectOf, within, functions]

end

/-- The first marker in a marked function is its own, and the functions of the others lie in it. -/
theorem within_cons {n : Nat} {directive : Text} {f : Tree} (hf : Placed n f)
    (h : isMarked directive f = true) :
    ∃ m ms, within directive f = m :: ms ∧ m.owner = f ∧
      ∀ m' ∈ ms, f.start ≤ m'.owner.start ∧ m'.owner.stop ≤ f.stop ∧ m'.owner.start < m'.owner.stop := by
  simp only [isMarked, Bool.and_eq_true, Bool.not_eq_true', List.isEmpty_eq_false_iff] at h
  obtain ⟨hfun, hmarked⟩ := h
  cases f with
  | leaf t => cases hfun
  | node k ts =>
    have hwithin : within directive (.node k ts) = own directive (.node k ts) ++ inside directive ts := by
      simp [within, functions, collect, hfun, inside]
    have howner : ∀ m ∈ within directive (.node k ts), Holds (.node k ts) m.owner := by
      intro m hm
      obtain ⟨g, hg, hm⟩ := List.mem_flatMap.1 hm
      rw [owner_of_own hm]
      exact (mem_collect.1 hg).1
    cases hown : own directive (.node k ts) with
    | nil => exact (hmarked (List.map_eq_nil_iff.1 hown)).elim
    | cons m ms =>
      refine ⟨m, ms ++ inside directive ts, by simp [hwithin, hown], ?_, fun m' hm' => ?_⟩
      · exact owner_of_own (by rw [hown]; simp)
      · have hb := hf.bounds (howner m' (by rw [hwithin, hown]; exact List.mem_cons_of_mem _ hm'))
        exact ⟨hb.1, hb.2.2, hb.2.1⟩

end Directive

namespace Pass

open Directive

def reportAll (p : Pass) (ds : List Diagnostic) : Pass := { p with diagnostics := p.diagnostics ++ ds }

/-- Takes out one function and reports the further markers in it. -/
def takeOne (path source : Text) (p : Pass) (f : Tree) : Pass × Except PassFault Extracted :=
  match extract path source f with
  | .error e => (p, .error e)
  | .ok x =>
    match p.register path x with
    | (q, .error e) => (q, .error e)
    | (q, .ok _) =>
      (q.reportAll (((within p.config.directive f).drop 1).map (nested path source · x.line)), .ok x)

/-- Takes out functions one after another, up to the first error. -/
def takeEach (path source : Text) : Pass → List Tree → Pass × Except PassFault (List Extracted)
  | p, [] => (p, .ok [])
  | p, f :: fs =>
    match takeOne path source p f with
    | (q, .error e) => (q, .error e)
    | (q, .ok x) => (takeEach path source q fs).map id (·.map (x :: ·))

theorem register_config (p : Pass) (path : Text) (x : Extracted) :
    (p.register path x).1.config = p.config := by
  unfold register
  split
  · rfl
  · split <;> rfl

theorem takeOne_config (path source : Text) (p : Pass) (f : Tree) :
    (takeOne path source p f).1.config = p.config := by
  unfold takeOne
  split
  · rfl
  · rename_i x _
    have := register_config p path x
    split <;> simp_all [reportAll]

theorem takeEach_config (path source : Text) (p : Pass) (fs : List Tree) :
    (takeEach path source p fs).1.config = p.config := by
  induction fs generalizing p with
  | nil => rfl
  | cons f fs ih =>
    have hone := takeOne_config path source p f
    unfold takeEach
    split
    · rename_i hq
      rw [hq] at hone
      exact hone
    · rename_i q x hq
      rw [hq] at hone
      simpa using (ih q).trans hone

theorem extract_ok {path source : Text} {f : Tree} {x : Extracted} (h : extract path source f = .ok x) :
    Extracted.ofFunction? path source f = some x := by
  unfold extract at h
  split at h
  · cases h; assumption
  · cases h

theorem span_ofFunction {path source : Text} {f : Tree} {x : Extracted}
    (h : Extracted.ofFunction? path source f = some x) : x.start = f.start ∧ x.stop = f.stop := by
  obtain ⟨name, _, rfl⟩ := Option.map_eq_some_iff.1 h
  exact ⟨rfl, rfl⟩

theorem id_ofFunction {path source : Text} {f : Tree} {x : Extracted}
    (h : Extracted.ofFunction? path source f = some x) : x.id = functionId path x.name := by
  obtain ⟨name, _, rfl⟩ := Option.map_eq_some_iff.1 h
  rfl

/-- Markers inside the function that was taken out last are reported and change nothing else. -/
private theorem takeOut_nested {path source : Text} {p : Pass} {taken : List Extracted} {x : Extracted}
    {ms ns : List Marker} {n : Nat} (ht : ∀ y ∈ taken, y.stop ≤ n) (hx : n ≤ x.start)
    (hms : ∀ m ∈ ms, x.start ≤ m.owner.start ∧ m.owner.stop ≤ x.stop ∧ m.owner.start < m.owner.stop) :
    takeOut path source p (taken ++ [x]) (ms ++ ns) =
      takeOut path source (p.reportAll (ms.map (nested path source · x.line))) (taken ++ [x]) ns := by
  induction ms generalizing p with
  | nil => simp [reportAll]
  | cons m ms ih =>
    obtain ⟨h₁, h₂, h₃⟩ := hms m (by simp)
    have hfind : (taken ++ [x]).find? (encloses · m.owner) = some x := by
      rw [List.find?_append, List.find?_eq_none.2]
      · simp [encloses, h₁, h₂]
      · intro y hy
        have := ht y hy
        simp [encloses]
        omega
    rw [List.cons_append, takeOut, hfind]
    simp only
    rw [ih fun m' hm' => hms m' (by simp [hm'])]
    simp [reportAll, report]

/-- The markers of functions that stand one behind another. -/
theorem takeOut_eq_takeEach (path source : Text) (p : Pass) (taken : List Extracted) {fs : List Tree}
    {n : Nat} (h : Text.Apart n (fs.map span)) (ht : ∀ x ∈ taken, x.stop ≤ n)
    (hfs : ∀ f ∈ fs, (∃ m, Placed m f) ∧ isMarked p.config.directive f = true) :
    takeOut path source p taken (fs.flatMap (within p.config.directive)) =
      (takeEach path source p fs).map id (·.map (taken ++ ·)) := by
  induction fs generalizing p taken n with
  | nil => simp [takeOut, takeEach, Except.map]
  | cons f fs ih =>
    obtain ⟨⟨k, hf⟩, hmarked⟩ := hfs f (by simp)
    obtain ⟨hn, hlt, hrest⟩ := h
    simp only [span] at hn hlt hrest
    obtain ⟨m, ms, hwithin, howner, hms⟩ := within_cons hf hmarked
    have hfind : taken.find? (encloses · m.owner) = none := by
      refine List.find?_eq_none.2 fun x hx => ?_
      have := ht x hx
      rw [howner]
      simp [encloses]
      omega
    rw [List.flatMap_cons, hwithin, List.cons_append, takeOut, hfind]
    simp only [howner, takeEach, takeOne]
    cases hx : extract path source f with
    | error e => simp [Except.map]
    | ok x =>
      obtain ⟨hstart, hstop⟩ := span_ofFunction (extract_ok hx)
      have hconfig := register_config p path x
      cases hr : p.register path x with
      | mk q r =>
        rw [hr] at hconfig
        cases r with
        | error e => simp [hr, Except.map]
        | ok u =>
          have htaken : ∀ y ∈ taken ++ [x], y.stop ≤ f.stop := by
            intro y hy
            rcases List.mem_append.1 hy with hy | hy
            · have := ht y hy
              omega
            · rw [List.mem_singleton.1 hy, hstop]
          simp only [hr, hwithin, List.drop_one, List.tail_cons]
          rw [takeOut_nested ht (hstart ▸ hn) (by rw [hstart, hstop]; exact hms)]
          have hcut : (q.reportAll (ms.map (nested path source · x.line))).config = p.config := hconfig
          rw [← hcut, ih _ _ hrest htaken fun g hg => hcut ▸ hfs g (by simp [hg])]
          rcases takeEach path source (q.reportAll _) fs with ⟨q', r | xs⟩ <;> simp [Except.map]

theorem takeEach_cons {path source : Text} {p q : Pass} {f : Tree} {fs : List Tree}
    {xs : List Extracted} (h : takeEach path source p (f :: fs) = (q, .ok xs)) :
    ∃ p' x ys, takeOne path source p f = (p', .ok x) ∧ takeEach path source p' fs = (q, .ok ys) ∧
      xs = x :: ys := by
  unfold takeEach at h
  split at h
  · cases h
  · rename_i p' x hx
    cases hrest : takeEach path source p' fs with
    | mk q' r =>
      rw [hrest] at h
      cases r with
      | error e => cases h
      | ok ys =>
        cases h
        exact ⟨p', x, ys, hx, hrest, rfl⟩

/-- What is taken out are the given functions, each of them as it stands in the file. -/
theorem forall₂_of_takeEach {path source : Text} {p q : Pass} {fs : List Tree} {xs : List Extracted}
    (h : takeEach path source p fs = (q, .ok xs)) :
    List.Forall₂ (fun f x => Extracted.ofFunction? path source f = some x) fs xs := by
  induction fs generalizing p xs with
  | nil => cases h; exact .nil
  | cons f fs ih =>
    obtain ⟨p', x, ys, hx, hys, rfl⟩ := takeEach_cons h
    refine .cons ?_ (ih hys)
    unfold takeOne at hx
    split at hx
    · cases hx
    · rename_i y hy
      split at hx <;> cases hx
      exact extract_ok hy

/-- The outermost marked functions of a source have their places in it. -/
theorem topmost_placed (directive : Text) {source : Text} {tree : Tree} (h : Js.parse source = some tree) :
    ∀ f ∈ topmost directive tree, (∃ n, Placed n f) ∧ isMarked directive f = true := by
  obtain ⟨ts, b, rfl, hplaced, _⟩ := Js.parse_placed h
  intro f hf
  obtain ⟨t, ht, hf, hmarked⟩ := holds_of_outermostOf hf
  obtain ⟨m, _, hm⟩ := hplaced.placed_of_mem ht
  obtain ⟨m', _, hm'⟩ := hm.holds hf
  exact ⟨⟨m', hm'⟩, hmarked⟩

/-- Taking out what the sorted markers of a source mark is taking out its outermost marked functions. -/
private theorem takeOut_markers (path : Text) {source : Text} {tree : Tree} (p : Pass)
    (h : Js.parse source = some tree) :
    takeOut path source p [] ((markers p.config.directive tree).mergeSort outerFirst) =
      takeEach path source p (topmost p.config.directive tree) := by
  have hfs := topmost_placed p.config.directive h
  obtain ⟨ts, b, rfl, hplaced, _⟩ := Js.parse_placed h
  have htake := takeOut_eq_takeEach path source p [] hplaced.outermostOf_apart (by simp) hfs
  rw [markers_sorted .program rfl hplaced, inside_eq, htake]
  change (takeEach path source p (topmost p.config.directive (.node .program ts))).map id _ = _
  rcases takeEach path source p (topmost p.config.directive (.node .program ts)) with ⟨q, e | xs⟩
  · rfl
  · rfl

/-- A pass with the directives of a whole file reported. -/
def reportOrphans (p : Pass) (a : Artifact) (tree : Tree) : Pass :=
  p.reportAll ((orphans p.config.directive tree).map (orphan p.config.directive a.path a.source))

/-- What rewriting a file comes to: its outermost marked functions are taken out one after another, and
the stubs of all of them take their places. -/
theorem process_eq (p : Pass) (a : Artifact) :
    p.process a =
      match Js.read a.source with
      | .error e => (p, .error (.broken a.path e))
      | .ok tree =>
        (takeEach a.path a.source (p.reportOrphans a tree) (topmost p.config.directive tree)).map id
          (·.map fun xs =>
            if xs = [] then none
            else some (Edit.applyAll a.source (xs.map (edit p.config.endpoint)))) := by
  unfold process
  cases hread : Js.read a.source with
  | error e => rfl
  | ok tree =>
    have hparse : Js.parse a.source = some tree := by
      unfold Js.read at hread
      split at hread
      · cases hread; assumption
      · cases hread
    have htake := takeOut_markers a.path (p.reportOrphans a tree) hparse
    have hconfig := takeEach_config a.path a.source (p.reportOrphans a tree)
      (topmost p.config.directive tree)
    simp only [reportOrphans, reportAll] at htake hconfig ⊢
    rw [htake]
    revert hconfig
    rcases takeEach a.path a.source _ (topmost p.config.directive tree) with ⟨q, e | xs⟩
    · intro _
      rfl
    · intro hconfig
      have hendpoint : q.config = p.config := hconfig
      cases xs with
      | nil => rfl
      | cons x xs => simp [Except.map, hendpoint]

/-- A file that is rewritten has a tree, and all its outermost marked functions are taken out. -/
theorem exists_of_process {p q : Pass} {a : Artifact} {r : Option Text} (h : p.process a = (q, .ok r)) :
    ∃ tree xs, Js.parse a.source = some tree ∧
      takeEach a.path a.source (p.reportOrphans a tree) (topmost p.config.directive tree) = (q, .ok xs) ∧
      r = if xs = [] then none
        else some (Edit.applyAll a.source (xs.map (edit p.config.endpoint))) := by
  rw [process_eq] at h
  unfold Js.read at h
  cases hparse : Js.parse a.source with
  | none => simp [hparse] at h
  | some tree =>
    simp only [hparse] at h
    cases htake : takeEach a.path a.source (p.reportOrphans a tree) (topmost p.config.directive tree) with
    | mk q' r' =>
      rw [htake] at h
      cases r' with
      | error e => cases h
      | ok xs =>
        cases h
        exact ⟨tree, xs, rfl, htake, rfl⟩

/-- A file is rewritten where it has a tree and no function of it is an error. -/
theorem exists_ok_of_isOk {p : Pass} {a : Artifact}
    (h : ((Js.parse a.source).map fun tree =>
      (takeEach a.path a.source (p.reportOrphans a tree) (topmost p.config.directive tree)).2.isOk) =
        some true) :
    ∃ q r, p.process a = (q, .ok r) := by
  obtain ⟨tree, hparse, hok⟩ := Option.map_eq_some_iff.1 h
  rw [process_eq]
  unfold Js.read
  simp only [hparse]
  cases htake : takeEach a.path a.source (p.reportOrphans a tree) (topmost p.config.directive tree) with
  | mk q r =>
    rw [htake] at hok
    cases r with
    | error e => cases hok
    | ok xs => exact ⟨_, _, rfl⟩

end Pass
end ServerSplit
