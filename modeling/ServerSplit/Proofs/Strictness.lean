import ServerSplit.Proofs.Run

/-! Passes that end at the first taken identifier, and passes that report each of them. Over the same files
the two go in step as long as no identifier is taken. -/
namespace ServerSplit

open Js (Tree)
open Directive (within topmost)

namespace Pass

variable {α β : Type} {p q : Pass} {path source : Text} {f : Tree} {x : Extracted}

/-! ### The steps of a pass -/

theorem takeOne_error {e : PassFault} (he : extract path source f = .error e) :
    takeOne path source p f = (p, .error e) := by
  rw [takeOne, he]

theorem takeOne_fresh (he : extract path source f = .ok x) (hx : p.registry.get? x.id = none) :
    takeOne path source p f =
      (({ p with registry := (p.registry.register (x.record path)).1 } : Pass).reportAll
        (((within p.config.directive f).drop 1).map (nested path source · x.line)), .ok x) := by
  rw [takeOne, he]
  simp only [register_eq, hx]

theorem takeOne_taken {kept : Record} (he : extract path source f = .ok x)
    (hx : p.registry.get? x.id = some kept) :
    takeOne path source p f =
      if p.config.strictDuplicates then (p, .error (.duplicate path x.line x.id))
      else ((p.report (dropped path x kept)).reportAll
        (((within p.config.directive f).drop 1).map (nested path source · x.line)), .ok x) := by
  rw [takeOne, he]
  simp only [register_eq, hx]
  cases p.config.strictDuplicates <;> rfl

theorem settled_takeEach_cons (fs : List Tree) :
    settled (takeEach path source p (f :: fs)) =
      settled (takeOne path source p f) >>= fun r =>
        (settled (takeEach path source r.1 fs)).map fun s => (s.1, r.2 :: s.2) := by
  rw [takeEach]
  obtain ⟨q, e | x⟩ := takeOne path source p f
  · rfl
  · change settled ((takeEach path source q fs).map id _) = (settled (takeEach path source q fs)).map _
    obtain ⟨q', e | xs⟩ := takeEach path source q fs <;> rfl

theorem settled_process (a : Artifact) :
    settled (p.process a) =
      (Js.read a.source).mapError (.broken a.path) >>= fun tree =>
        (settled (takeEach a.path a.source (p.reportOrphans a tree) (topmost p.config.directive tree))).map
          fun r => (r.1, if r.2 = [] then none
            else some (Edit.applyAll a.source (r.2.map (edit p.config.endpoint)))) := by
  rw [process_eq]
  cases Js.read a.source with
  | error e => rfl
  | ok tree =>
    change settled ((takeEach _ _ _ _).map id _) = (settled (takeEach _ _ _ _)).map _
    obtain ⟨q, e | xs⟩ := takeEach a.path a.source (p.reportOrphans a tree) (topmost p.config.directive tree)
      <;> rfl

/-! ### Two passes in step -/

/-- The pass as one that ends at the first taken identifier. -/
def strict (p : Pass) : Pass := { p with config := { p.config with strictDuplicates := true } }

/-- What a lenient pass `p` comes to, and what a strict one does: the same, without a taken identifier on
the way, or the strict one has ended at the first identifier that the lenient one reports. -/
inductive InStep (p : Pass) : Except PassFault (Pass × α) → Except PassFault (Pass × α) → Prop
  | fault (e : PassFault) : InStep p (.error e) (.error e)
  | together {q : Pass} (v : α) (h : duplicates q.diagnostics = duplicates p.diagnostics) :
    InStep p (.ok (q, v)) (.ok (q.strict, v))
  | parted {r : Except PassFault (Pass × α)} (path : Text) (x : Extracted) (kept : Record)
    (h : ∀ q v, r = .ok (q, v) →
      duplicates p.diagnostics ++ [dropped path x kept] <+: duplicates q.diagnostics) :
    InStep p r (.error (.duplicate path x.line x.id))

namespace InStep

variable {r s : Except PassFault (Pass × α)}

/-- Reports of other kinds do not count. -/
theorem of_duplicates_eq (h : InStep q r s) (hq : duplicates q.diagnostics = duplicates p.diagnostics) :
    InStep p r s := by
  cases h with
  | fault e => exact .fault e
  | together v h => exact .together v (h.trans hq)
  | parted path x kept h => exact .parted path x kept (hq ▸ h)

theorem map (h : InStep p r s) (g : α → β) :
    InStep p (r.map fun t => (t.1, g t.2)) (s.map fun t => (t.1, g t.2)) := by
  cases h with
  | fault e => exact .fault e
  | together v h => exact .together (g v) h
  | parted path x kept h =>
    refine .parted path x kept fun q w hw => ?_
    obtain ⟨t, rfl, he⟩ := exists_of_map hw
    cases he
    exact h _ _ rfl

/-- Steps that go in step one after another do so together. -/
theorem bind {k : Pass × α → Except PassFault (Pass × β)} (h : InStep p r s)
    (hk : ∀ q v, r = .ok (q, v) → InStep q (k (q, v)) (k (q.strict, v)))
    (hgrows : ∀ q v q' w, r = .ok (q, v) → k (q, v) = .ok (q', w) →
      duplicates q.diagnostics <+: duplicates q'.diagnostics) :
    InStep p (r >>= k) (s >>= k) := by
  cases h with
  | fault e => exact .fault e
  | together v h => exact (hk _ v rfl).of_duplicates_eq h
  | parted path x kept h =>
    refine .parted path x kept fun q' w hw => ?_
    obtain ⟨t, rfl, hw⟩ := exists_of_bind hw
    exact (h t.1 t.2 rfl).trans (hgrows _ _ _ _ rfl hw)

end InStep

theorem Adds.grows {xs : List Record} (h : Adds p q xs) :
    Pass.duplicates p.diagnostics <+: Pass.duplicates q.diagnostics :=
  h.duplicates ▸ List.prefix_append _ _

theorem Adds.lenient {xs : List Record} (h : Adds p q xs) (hlenient : p.config.strictDuplicates = false) :
    q.config.strictDuplicates = false := h.config ▸ hlenient

/-- A function is taken out in step, where the strict pass does not end with it. -/
theorem takeOne_inStep (path source : Text) {p : Pass} (f : Tree)
    (hlenient : p.config.strictDuplicates = false) :
    InStep p (settled (takeOne path source p f)) (settled (takeOne path source p.strict f)) := by
  cases he : extract path source f with
  | error e =>
    rw [takeOne_error he, takeOne_error he]
    exact .fault e
  | ok x =>
    have hnested (q : Pass) : duplicates (q.reportAll (((within p.config.directive f).drop 1).map
        (nested path source · x.line))).diagnostics = duplicates q.diagnostics :=
      duplicates_reportAll fun d hd => by simp [kind_of_mem_nested hd]
    cases hx : p.registry.get? x.id with
    | none =>
      rw [takeOne_fresh he hx, takeOne_fresh (p := p.strict) he hx]
      exact .together x (hnested _)
    | some kept =>
      rw [takeOne_taken he hx, takeOne_taken (p := p.strict) he hx, if_neg (by simp [hlenient])]
      refine .parted path x kept fun q v hq => ?_
      cases hq
      rw [hnested]
      simp [report, duplicates, dropped]

theorem takeEach_inStep (path source : Text) {p : Pass} (fs : List Tree)
    (hlenient : p.config.strictDuplicates = false) :
    InStep p (settled (takeEach path source p fs)) (settled (takeEach path source p.strict fs)) := by
  induction fs generalizing p with
  | nil => exact .together [] rfl
  | cons f fs ih =>
    rw [settled_takeEach_cons, settled_takeEach_cons]
    refine (takeOne_inStep path source f hlenient).bind (fun q x hq => ?_) fun q x q' xs _ hq' => ?_
    · exact (ih ((takeOne_adds (settled_eq_ok hq)).lenient hlenient)).map (x :: ·)
    · obtain ⟨_, hrest, he⟩ := exists_of_map hq'
      cases he
      exact (takeEach_adds (settled_eq_ok hrest)).grows

theorem process_inStep {p : Pass} (a : Artifact) (hlenient : p.config.strictDuplicates = false) :
    InStep p (settled (p.process a)) (settled (p.strict.process a)) := by
  rw [settled_process, settled_process]
  cases Js.read a.source with
  | error e => exact .fault _
  | ok tree =>
    have horphans : duplicates (p.reportOrphans a tree).diagnostics = duplicates p.diagnostics :=
      duplicates_reportAll fun d hd => by simp [kind_of_mem_orphans hd]
    have hlenient' : (p.reportOrphans a tree).config.strictDuplicates = false := hlenient
    have htake := takeEach_inStep a.path a.source (topmost p.config.directive tree) hlenient'
    exact (htake.of_duplicates_eq horphans).map fun xs =>
      if xs = [] then none else some (Edit.applyAll a.source (xs.map (edit p.config.endpoint)))

theorem processAll_inStep {p : Pass} (as : List Artifact) (hlenient : p.config.strictDuplicates = false) :
    InStep p (processAll p as) (processAll p.strict as) := by
  induction as generalizing p with
  | nil => exact .together _ rfl
  | cons a as ih =>
    rw [processAll_cons, processAll_cons]
    change InStep p _ (if p.config.accepts a.path then _ else _)
    split
    · rename_i haccepts
      refine (process_inStep a hlenient).bind (fun q changed hq => ?_) fun q changed q' rest _ hq' => ?_
      · have hadds := (process_ok haccepts (settled_eq_ok hq)).1
        exact (ih (hadds.lenient hlenient)).map (listed a changed)
      · obtain ⟨_, hrest, he⟩ := exists_of_map hq'
        cases he
        exact (processAll_ok hrest).adds.grows
    · exact (ih hlenient).map fun s => (a :: s.1, s.2)

/-! ### Whole passes -/

/-- What is given out when a pass has gone through its files. -/
def finish (c : Config) (r : Pass × List Artifact × List Text × Nat) : Output where
  artifacts := r.2.1
  rewritten := r.2.2.1
  scanned := r.2.2.2
  sdk := ⟨c.sdkPath, Sdk.render c.sdkFactory c.moduleFormat r.1.registry⟩
  registry := r.1.registry
  diagnostics := r.1.diagnostics

theorem run_eq (p : Pass) (as : List Artifact) : p.run as = (processAll p as).map (finish p.config) := by
  unfold run
  cases processAll p as <;> rfl

/-- A strict pass ends well exactly where the lenient one ends well and reports no taken identifier, and it
gives the same then. Where the lenient pass reports some, the strict one ends with the first of them, and
where the lenient pass fails, the strict one fails too. -/
theorem runPass_strict_iff (c : Config) (as : List Artifact) :
    (∀ out, runPass { c with strictDuplicates := true } as = .ok out ↔
      runPass { c with strictDuplicates := false } as = .ok out ∧ duplicates out.diagnostics = []) ∧
    (∀ out d ds, runPass { c with strictDuplicates := false } as = .ok out →
      duplicates out.diagnostics = d :: ds →
      ∃ x kept, d = dropped d.file x kept ∧
        runPass { c with strictDuplicates := true } as = .error (.duplicate d.file d.line x.id)) ∧
    (∀ e, runPass { c with strictDuplicates := false } as = .error e →
      ∃ e', runPass { c with strictDuplicates := true } as = .error e') := by
  have hstep := processAll_inStep (p := { config := { c with strictDuplicates := false } }) as rfl
  change InStep _ _ (processAll { config := { c with strictDuplicates := true } } as) at hstep
  simp only [runPass, run_eq]
  generalize processAll { config := { c with strictDuplicates := false } } as = r at hstep ⊢
  generalize processAll { config := { c with strictDuplicates := true } } as = s at hstep ⊢
  cases hstep with
  | fault e => simp [Except.map]
  | @together q v h =>
    have hnone : duplicates q.diagnostics = [] := h
    refine ⟨fun out => ⟨fun hout => ?_, fun hout => hout.1⟩, fun out d ds hout hd => ?_,
      fun e he => by cases he⟩
    · cases hout
      exact ⟨rfl, hnone⟩
    · cases hout
      exact absurd (hnone.symm.trans hd) (by simp)
  | parted path x kept h =>
    have hfirst : ∀ out, r.map (finish { c with strictDuplicates := false }) = .ok out →
        ∃ ds, duplicates out.diagnostics = dropped path x kept :: ds := by
      intro out hout
      obtain ⟨t, rfl, rfl⟩ := exists_of_map hout
      obtain ⟨ds, hds⟩ := h t.1 t.2 rfl
      exact ⟨ds, hds.symm⟩
    refine ⟨fun out => ⟨nofun, fun hout => ?_⟩, fun out d ds hout hd => ?_,
      fun e _ => ⟨_, rfl⟩⟩
    · obtain ⟨ds, hds⟩ := hfirst out hout.1
      exact absurd (hds.symm.trans hout.2) (by simp)
    · obtain ⟨ds', hds⟩ := hfirst out hout
      obtain ⟨rfl, _⟩ := List.cons.inj (hds.symm.trans hd)
      exact ⟨x, kept, rfl, rfl⟩

private def twiceFile : Artifact :=
  ⟨"a.js".toList, "function f()\x7b'd'\x7d\nfunction f()\x7b'd'\x7d".toList⟩

/-- A file whose second function has the identifier of its first one. -/
theorem runPass_strict_twice :
    ∃ out x kept, runPass { directive := ['d'] } [twiceFile] = .ok out ∧
      duplicates out.diagnostics = [dropped "a.js".toList x kept] ∧
      runPass { directive := ['d'], strictDuplicates := true } [twiceFile] =
        .error (.duplicate "a.js".toList 2 x.id) := by
  have hfile : isSound { directive := ['d'] } twiceFile = true ∧
      (Registry.empty.clashes (records { directive := ['d'] } [twiceFile])).map
        (fun r => (r.1.artifact, r.1.line)) = [("a.js".toList, 2)] := by
    decide +kernel
  obtain ⟨hsound, hclashes⟩ := hfile
  obtain ⟨out, h⟩ := runPass_lenient (c := { directive := ['d'] }) rfl
    (List.forall_mem_singleton.2 fun _ => hsound)
  obtain ⟨clash, hclash, hplace⟩ := List.map_eq_singleton_iff.1 hclashes
  have hreports : duplicates out.diagnostics = [collision clash] := by
    rw [(runPass_yields h).duplicates, hclash]
    rfl
  obtain ⟨hfile, hline⟩ := Prod.mk.inj hplace
  obtain ⟨x, kept, hd, hstrict⟩ := (runPass_strict_iff { directive := ['d'] } [twiceFile]).2.1 _ _ _ h hreports
  have hpath : (collision clash).file = "a.js".toList := hfile
  have hat : (collision clash).line = 2 := hline
  rw [hpath] at hd
  rw [hpath, hat] at hstrict
  exact ⟨out, x, kept, h, hd ▸ hreports, hstrict⟩

end Pass
end ServerSplit
