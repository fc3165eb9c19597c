import ServerSplit.Proofs.Client
import ServerSplit.Proofs.Except
import ServerSplit.Proofs.Registry

/-! What a whole pass does, file by file. The functions that it takes out, the registry and the reports of
taken identifiers are told from the files alone. -/
namespace ServerSplit

open Js (Tree)
open Js.Tree
open Directive (topmost)

/-- The record of a function in the file of a path. -/
def Extracted.record (path : Text) (x : Extracted) : Record := ⟨x.id, x.name, x.sourceText, path, x.line⟩

namespace Pass

/-- The report of a function whose identifier is taken. -/
def collision (c : Record × Record) : Diagnostic :=
  dropped c.1.artifact ⟨c.1.id, c.1.name, c.1.sourceText, 0, 0, c.1.line, false, []⟩ c.2

def duplicates (ds : List Diagnostic) : List Diagnostic := ds.filter (·.kind = .duplicateFunction)

@[simp] theorem duplicates_append (ds es : List Diagnostic) :
    duplicates (ds ++ es) = duplicates ds ++ duplicates es := by simp [duplicates]

/-- What one function adds to a pass. -/
structure Adds (p q : Pass) (xs : List Record) : Prop where
  config : q.config = p.config
  registry : q.registry = p.registry.addAll xs
  duplicates : duplicates q.diagnostics =
    duplicates p.diagnostics ++ (p.registry.clashes xs).map collision

theorem Adds.refl (p : Pass) : Adds p p [] := ⟨rfl, rfl, by simp [Registry.clashes]⟩

theorem Adds.trans {p q r : Pass} {xs ys : List Record} (h : Adds p q xs) (h' : Adds q r ys) :
    Adds p r (xs ++ ys) where
  config := h'.config.trans h.config
  registry := by rw [h'.registry, h.registry, Registry.addAll_append]
  duplicates := by
    rw [h'.duplicates, h.duplicates, h.registry, Registry.clashes_append, List.map_append,
      List.append_assoc]

/-- Reports of other kinds are passed over. -/
theorem filter_reportAll {k : DiagnosticKind} (p : Pass) {ds : List Diagnostic} (h : ∀ d ∈ ds, d.kind ≠ k) :
    (p.reportAll ds).diagnostics.filter (·.kind = k) = p.diagnostics.filter (·.kind = k) := by
  have hnone : ds.filter (·.kind = k) = [] := List.filter_eq_nil_iff.2 fun d hd => by simpa using h d hd
  rw [reportAll, List.filter_append, hnone, List.append_nil]

theorem duplicates_reportAll {p : Pass} {ds : List Diagnostic} (h : ∀ d ∈ ds, d.kind ≠ .duplicateFunction) :
    duplicates (p.reportAll ds).diagnostics = duplicates p.diagnostics :=
  filter_reportAll p h

/-- Reports of other kinds add nothing. -/
theorem reportAll_adds {p : Pass} {ds : List Diagnostic} (h : ∀ d ∈ ds, d.kind ≠ .duplicateFunction) :
    Adds p (p.reportAll ds) [] where
  config := rfl
  registry := rfl
  duplicates := by
    rw [duplicates_reportAll h]
    simp [Registry.clashes]

theorem kind_of_mem_nested {path source : Text} {ms : List Marker} {line : Nat} {d : Diagnostic}
    (h : d ∈ ms.map (nested path source · line)) : d.kind = .nestedDirective := by
  obtain ⟨m, _, rfl⟩ := List.mem_map.1 h
  rfl

theorem kind_of_mem_orphans {directive path source : Text} {ls : List Tree} {d : Diagnostic}
    (h : d ∈ ls.map (orphan directive path source)) : d.kind = .orphanDirective := by
  obtain ⟨l, _, rfl⟩ := List.mem_map.1 h
  rfl

theorem reportOrphans_adds (p : Pass) (a : Artifact) (tree : Tree) : Adds p (p.reportOrphans a tree) [] :=
  reportAll_adds fun d hd => by simp [kind_of_mem_orphans hd]

/-- Whether a function is registered turns on its identifier alone. -/
theorem register_eq (p : Pass) (path : Text) (x : Extracted) :
    p.register path x =
      match p.registry.get? x.id with
      | none => ({ p with registry := (p.registry.register (x.record path)).1 }, .ok ())
      | some kept =>
        if p.config.strictDuplicates then (p, .error (.duplicate path x.line x.id))
        else (p.report (dropped path x kept), .ok ()) := by
  unfold register
  have hrecord : (⟨x.id, x.name, x.sourceText, path, x.line⟩ : Record) = x.record path := rfl
  have hid : (x.record path).id = x.id := rfl
  rw [hrecord]
  cases hx : p.registry.get? x.id with
  | none =>
    have hnone := Registry.register_of_none (hid ▸ hx)
    split
    · rename_i registry hr
      rw [hr]
    · rename_i kept hr
      rw [hr] at hnone
      cases hnone
  | some kept => rw [Registry.register_of_some (hid ▸ hx)]

/-- Registering a function reports none but its duplicate. -/
theorem register_filter {k : DiagnosticKind} (hk : k ≠ .duplicateFunction) (p : Pass) (path : Text)
    (x : Extracted) :
    (p.register path x).1.diagnostics.filter (·.kind = k) = p.diagnostics.filter (·.kind = k) := by
  rw [register_eq]
  cases p.registry.get? x.id with
  | none => rfl
  | some kept =>
    simp only
    split
    · rfl
    · exact filter_reportAll p (List.forall_mem_singleton.2 (Ne.symm hk))

theorem register_adds {p q : Pass} {path : Text} {x : Extracted}
    (h : p.register path x = (q, .ok ())) : Adds p q [x.record path] := by
  rw [register_eq] at h
  have hid : (x.record path).id = x.id := rfl
  cases hx : p.registry.get? x.id with
  | none =>
    rw [hx] at h
    cases h
    exact ⟨rfl, rfl, by simp [Registry.clashes, hid, hx]⟩
  | some kept =>
    rw [hx] at h
    simp only at h
    split at h
    · cases h
    · cases h
      refine ⟨rfl, ?_, ?_⟩
      · simp [Registry.addAll, Registry.register_of_some (hid ▸ hx), report]
      · simp only [report, duplicates_append, Registry.clashes, hid, hx]
        rfl

theorem takeOne_adds {path source : Text} {p q : Pass} {f : Tree} {x : Extracted}
    (h : takeOne path source p f = (q, .ok x)) : Adds p q [x.record path] := by
  unfold takeOne at h
  split at h
  · cases h
  · rename_i y hy
    split at h
    · cases h
    · rename_i q' u hr
      cases h
      exact (register_adds hr).trans (reportAll_adds fun d hd => by simp [kind_of_mem_nested hd])

theorem takeEach_adds {path source : Text} {p q : Pass} {fs : List Tree} {xs : List Extracted}
    (h : takeEach path source p fs = (q, .ok xs)) : Adds p q (xs.map (Extracted.record path)) := by
  induction fs generalizing p xs with
  | nil => cases h; exact .refl _
  | cons f fs ih =>
    obtain ⟨p', x, ys, hx, hys, rfl⟩ := takeEach_cons h
    exact (takeOne_adds hx).trans (ih hys)

/-! ### Files -/

/-- The functions that a pass takes out of a file. -/
def takes (c : Config) (a : Artifact) : List Extracted :=
  if c.accepts a.path then
    match Js.parse a.source with
    | some tree => (topmost c.directive tree).filterMap (Extracted.ofFunction? a.path a.source)
    | none => []
  else []

/-- A file with stubs in place of the functions that a pass takes out of it. -/
def rewrite (c : Config) (a : Artifact) : Artifact :=
  ⟨a.path, Edit.applyAll a.source ((takes c a).map (edit c.endpoint))⟩

/-- The records of the functions that a pass takes out of files, in the order of the files. -/
def records (c : Config) (as : List Artifact) : List Record :=
  as.flatMap fun a => (takes c a).map (Extracted.record a.path)

/-- Whether a file has a tree in which every outermost marked function has a name. -/
def isSound (c : Config) (a : Artifact) : Bool :=
  (Js.parse a.source).any fun tree => (topmost c.directive tree).all (·.functionName?.isSome)

theorem isSound_iff {c : Config} {a : Artifact} : isSound c a = true ↔
    ∃ tree, Js.parse a.source = some tree ∧
      ∀ f ∈ topmost c.directive tree, f.functionName?.isSome = true := by
  unfold isSound
  cases Js.parse a.source <;> simp

private theorem filterMap_of_forall₂ {path source : Text} {fs : List Tree} {xs : List Extracted}
    (h : List.Forall₂ (fun f x => Extracted.ofFunction? path source f = some x) fs xs) :
    fs.filterMap (Extracted.ofFunction? path source) = xs := by
  induction h with
  | nil => rfl
  | cons hx _ ih => simp [hx, ih]

private theorem named_of_forall₂ {path source : Text} {fs : List Tree} {xs : List Extracted}
    (h : List.Forall₂ (fun f x => Extracted.ofFunction? path source f = some x) fs xs) :
    ∀ f ∈ fs, f.functionName?.isSome = true := by
  induction h with
  | nil => simp
  | cons hx _ ih =>
    obtain ⟨name, hname, _⟩ := Option.map_eq_some_iff.1 hx
    exact List.forall_mem_cons.2 ⟨by simp [hname], ih⟩

theorem id_of_mem_takes {c : Config} {a : Artifact} {x : Extracted} (h : x ∈ takes c a) :
    x.id = functionId a.path x.name := by
  unfold takes at h
  split at h
  · split at h
    · obtain ⟨f, _, hx⟩ := List.mem_filterMap.1 h
      exact id_ofFunction hx
    · cases h
  · cases h

@[simp] theorem rewrite_of_takes_eq_nil {c : Config} {a : Artifact} (h : takes c a = []) :
    rewrite c a = a := by
  simp [rewrite, h, Edit.applyAll]

theorem process_ok {p q : Pass} {a : Artifact} {r : Option Text} (haccepts : p.config.accepts a.path = true)
    (h : p.process a = (q, .ok r)) :
    Adds p q ((takes p.config a).map (Extracted.record a.path)) ∧ isSound p.config a = true ∧
      r = if takes p.config a = [] then none else some (rewrite p.config a).source := by
  obtain ⟨tree, xs, hparse, htake, rfl⟩ := exists_of_process h
  have hforall := forall₂_of_takeEach htake
  have hxs : takes p.config a = xs := by
    simp only [takes, haccepts, if_true, hparse]
    exact filterMap_of_forall₂ hforall
  refine ⟨?_, isSound_iff.2 ⟨tree, hparse, named_of_forall₂ hforall⟩, by rw [rewrite, hxs]⟩
  rw [hxs]
  exact (reportOrphans_adds p a tree).trans (takeEach_adds htake)

theorem takes_of_not_accepts {c : Config} {a : Artifact} (h : ¬ c.accepts a.path = true) :
    takes c a = [] := by
  simp [takes, h]

/-! ### Files one after another -/

/-- What a pass leaves and what it gives, unless it ended with an error. -/
def settled {α : Type} (r : Pass × Except PassFault α) : Except PassFault (Pass × α) := r.2.map (r.1, ·)

theorem settled_eq_ok {α : Type} {q : Pass} {r : Pass × Except PassFault α} {v : α}
    (h : settled r = .ok (q, v)) : r = (q, .ok v) := by
  obtain ⟨p, e | w⟩ := r
  · cases h
  · cases h; rfl

/-- The files that are done, with one more in front of them. -/
def listed (a : Artifact) (changed : Option Text) (r : List Artifact × List Text × Nat) :
    List Artifact × List Text × Nat :=
  match changed with
  | some source => (⟨a.path, source⟩ :: r.1, a.path :: r.2.1, r.2.2 + 1)
  | none => (a :: r.1, r.2.1, r.2.2 + 1)

theorem processAll_cons (p : Pass) (a : Artifact) (as : List Artifact) :
    processAll p (a :: as) =
      if p.config.accepts a.path then
        settled (p.process a) >>= fun r =>
          (processAll r.1 as).map fun s => (s.1, listed a r.2 s.2)
      else (processAll p as).map fun s => (s.1, a :: s.2.1, s.2.2) := by
  rw [processAll]
  split
  · obtain ⟨q, e | changed⟩ := p.process a
    · rfl
    · change _ = (processAll q as).map _
      simp only
      cases processAll q as with
      | error e => rfl
      | ok rest => cases changed <;> rfl
  · cases processAll p as <;> rfl

/-- What comes of a list of files. -/
structure Outcome (c : Config) (as : List Artifact) (p q : Pass) (done : List Artifact)
    (rewritten : List Text) (scanned : Nat) : Prop where
  adds : Adds p q (records c as)
  sound : ∀ a ∈ as, c.accepts a.path = true → isSound c a = true
  done : done = as.map (rewrite c)
  rewritten : rewritten = (as.filter fun a => takes c a ≠ []).map (·.path)
  scanned : scanned = as.countP (c.accepts ·.path)

private theorem Outcome.cons {c : Config} {a : Artifact} {as done : List Artifact} {p p' q : Pass}
    {rewritten : List Text} {n : Nat} (ha : Adds p p' ((takes c a).map (Extracted.record a.path)))
    (hsound : c.accepts a.path = true → isSound c a = true) (h : Outcome c as p' q done rewritten n) :
    Outcome c (a :: as) p q (rewrite c a :: done)
      (if takes c a = [] then rewritten else a.path :: rewritten)
      (n + if c.accepts a.path then 1 else 0) where
  adds := ha.trans h.adds
  sound := List.forall_mem_cons.2 ⟨hsound, h.sound⟩
  done := by rw [h.done, List.map_cons]
  rewritten := by
    rw [h.rewritten]
    by_cases ht : takes c a = [] <;> simp [ht]
  scanned := by rw [h.scanned, List.countP_cons]

/-- A pass over a list of files does to each of them what it does to it alone. -/
theorem processAll_ok {p q : Pass} {as done : List Artifact} {rewritten : List Text} {n : Nat}
    (h : processAll p as = .ok (q, done, rewritten, n)) :
    Outcome p.config as p q done rewritten n := by
  induction as generalizing p q done rewritten n with
  | nil => cases h; exact ⟨.refl _, by simp, rfl, rfl, rfl⟩
  | cons a as ih =>
    rw [processAll_cons] at h
    split at h
    · rename_i haccepts
      obtain ⟨⟨p', changed⟩, hprocess, h⟩ := exists_of_bind h
      obtain ⟨⟨q', done', rewritten', n'⟩, hrest, he⟩ := exists_of_map h
      obtain ⟨hadds, hsound, hchanged⟩ := process_ok haccepts (settled_eq_ok hprocess)
      have hcons := Outcome.cons hadds (fun _ => hsound) (hadds.config ▸ ih hrest)
      rw [haccepts] at hcons
      subst hchanged
      by_cases ht : takes p.config a = []
      · rw [if_pos ht] at he
        cases he
        simpa [ht] using hcons
      · rw [if_neg ht] at he
        cases he
        simpa [ht, rewrite] using hcons
    · rename_i haccepts
      obtain ⟨⟨q', done', rewritten', n'⟩, hrest, he⟩ := exists_of_map h
      have ht := takes_of_not_accepts haccepts
      have hadds : Adds p p ((takes p.config a).map (Extracted.record a.path)) := by
        rw [ht]
        exact .refl p
      have hcons := Outcome.cons hadds (fun h => (haccepts h).elim) (ih hrest)
      cases he
      simpa [ht, haccepts] using hcons

/-- What a pass over files gives, told from the files alone. -/
structure Yields (c : Config) (as : List Artifact) (out : Output) : Prop where
  sound : ∀ a ∈ as, c.accepts a.path = true → isSound c a = true
  artifacts : out.artifacts = as.map (rewrite c)
  rewritten : out.rewritten = (as.filter fun a => takes c a ≠ []).map (·.path)
  scanned : out.scanned = as.countP (c.accepts ·.path)
  registry : out.registry = Registry.empty.addAll (records c as)
  duplicates : duplicates out.diagnostics = (Registry.empty.clashes (records c as)).map collision
  sdk : out.sdk = ⟨c.sdkPath, Sdk.render c.sdkFactory c.moduleFormat out.registry⟩

theorem runPass_yields {c : Config} {as : List Artifact} {out : Output} (h : runPass c as = .ok out) :
    Yields c as out := by
  unfold runPass run at h
  split at h
  · cases h
  · rename_i q artifacts rewritten scanned hrun
    cases h
    obtain ⟨hadds, hsound, hdone, hrewritten, hscanned⟩ := processAll_ok hrun
    refine ⟨hsound, hdone, hrewritten, hscanned, hadds.registry, ?_, rfl⟩
    simpa [duplicates] using hadds.duplicates

/-- Whether a file has a tree without marked functions. -/
def isUnmarked (c : Config) (a : Artifact) : Bool :=
  (Js.parse a.source).any fun tree => (topmost c.directive tree).isEmpty

theorem isUnmarked_iff {c : Config} {a : Artifact} : isUnmarked c a = true ↔
    ∃ tree, Js.parse a.source = some tree ∧ topmost c.directive tree = [] := by
  unfold isUnmarked
  cases Js.parse a.source <;> simp

/-- Of the files that can be taken apart, the unmarked ones are those from which nothing is taken. -/
theorem isUnmarked_iff_takes {c : Config} {a : Artifact} (haccepts : c.accepts a.path = true)
    (h : isSound c a = true) : isUnmarked c a = true ↔ takes c a = [] := by
  obtain ⟨tree, hparse, hnamed⟩ := isSound_iff.1 h
  have htakes : takes c a = (topmost c.directive tree).filterMap (Extracted.ofFunction? a.path a.source) := by
    simp [takes, haccepts, hparse]
  rw [isUnmarked_iff, htakes, hparse]
  constructor
  · rintro ⟨_, he, hnil⟩
    cases he
    simp [hnil]
  · intro hnil
    refine ⟨tree, rfl, List.eq_nil_iff_forall_not_mem.2 fun f hf => ?_⟩
    have hnone := List.filterMap_eq_nil_iff.1 hnil f hf
    have hname := hnamed f hf
    simp only [Extracted.ofFunction?, Option.map_eq_none_iff] at hnone
    simp [hnone] at hname

/-! ### When a pass ends well -/

private theorem takeOne_lenient (path source : Text) {p : Pass} {f : Tree}
    (hlenient : p.config.strictDuplicates = false) (hf : f.functionName?.isSome = true) :
    ∃ q x, takeOne path source p f = (q, .ok x) := by
  obtain ⟨name, hname⟩ := Option.isSome_iff_exists.1 hf
  unfold takeOne extract
  simp only [Extracted.ofFunction?, hname, Option.map_some, register_eq, hlenient]
  split
  · rename_i q e hq
    split at hq <;> simp at hq
  · exact ⟨_, _, rfl⟩

private theorem takeEach_lenient (path source : Text) {p : Pass} {fs : List Tree}
    (hlenient : p.config.strictDuplicates = false) (hfs : ∀ f ∈ fs, f.functionName?.isSome = true) :
    ∃ q xs, takeEach path source p fs = (q, .ok xs) := by
  induction fs generalizing p with
  | nil => exact ⟨_, _, rfl⟩
  | cons f fs ih =>
    obtain ⟨p', x, hx⟩ := takeOne_lenient path source hlenient (hfs f (by simp))
    have hconfig := takeOne_config path source p f
    rw [hx] at hconfig
    have hlenient' : p'.config.strictDuplicates = false := hconfig ▸ hlenient
    obtain ⟨q, xs, hxs⟩ := ih hlenient' fun g hg => hfs g (by simp [hg])
    exact ⟨q, x :: xs, by simp [takeEach, hx, hxs, Except.map]⟩

/-- A pass that lets identifiers clash only fails on a broken file or a nameless function. -/
theorem process_lenient {p : Pass} {a : Artifact} (hlenient : p.config.strictDuplicates = false)
    (h : isSound p.config a = true) : ∃ q r, p.process a = (q, .ok r) := by
  obtain ⟨tree, hparse, hnamed⟩ := isSound_iff.1 h
  obtain ⟨q, xs, htake⟩ := takeEach_lenient a.path a.source (p := p.reportOrphans a tree) hlenient hnamed
  rw [process_eq]
  simp only [Js.read, hparse, htake]
  exact ⟨_, _, rfl⟩

theorem processAll_lenient {p : Pass} {as : List Artifact} (hlenient : p.config.strictDuplicates = false)
    (h : ∀ a ∈ as, p.config.accepts a.path = true → isSound p.config a = true) :
    ∃ r, processAll p as = .ok r := by
  induction as generalizing p with
  | nil => exact ⟨_, rfl⟩
  | cons a as ih =>
    unfold processAll
    split
    · rename_i haccepts
      obtain ⟨q, changed, hq⟩ := process_lenient hlenient (h a (by simp) haccepts)
      have hconfig := (process_ok haccepts hq).1.config
      obtain ⟨r, hr⟩ := ih (p := q) (hconfig ▸ hlenient)
        fun b hb => hconfig ▸ h b (by simp [hb])
      simp only [hq, hr]
      cases changed <;> exact ⟨_, rfl⟩
    · obtain ⟨r, hr⟩ := ih hlenient fun b hb => h b (by simp [hb])
      rw [hr]
      exact ⟨_, rfl⟩

theorem runPass_lenient {c : Config} {as : List Artifact} (hlenient : c.strictDuplicates = false)
    (h : ∀ a ∈ as, c.accepts a.path = true → isSound c a = true) : ∃ out, runPass c as = .ok out := by
  obtain ⟨r, hr⟩ := processAll_lenient (p := { config := c }) hlenient h
  unfold runPass run
  rw [hr]
  exact ⟨_, rfl⟩

end Pass
end ServerSplit
