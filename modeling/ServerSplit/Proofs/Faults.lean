import ServerSplit.Proofs.Nesting
import ServerSplit.Proofs.Strictness

/-! The one error of a pass. Of all that could end it, in whichever file, it is what comes first: the pass
reads the files in their order, each of them before its functions, and these by their places. -/
namespace ServerSplit

open Js (Tree)
open Directive (topmost markers IsOutermost)

/-- The fault of the first element that has one, in the light of those before it. -/
def FirstFault {α : Type} (faults : List α → α → PassFault → Prop) (xs : List α) (e : PassFault) : Prop :=
  ∃ before x after, xs = before ++ x :: after ∧ faults before x e ∧
    ∀ earlier y later, before = earlier ++ y :: later → ∀ e', ¬ faults earlier y e'

namespace FirstFault

variable {α : Type} {faults : List α → α → PassFault → Prop} {e : PassFault}

@[simp] theorem nil : ¬ FirstFault faults [] e := by
  rintro ⟨before, x, after, h, _⟩
  cases before <;> cases h

theorem cons_iff {x : α} {xs : List α} :
    FirstFault faults (x :: xs) e ↔
      faults [] x e ∨ (∀ e', ¬ faults [] x e') ∧ FirstFault (fun before => faults (x :: before)) xs e := by
  constructor
  · rintro ⟨before, y, after, h, hy, hfirst⟩
    cases before with
    | nil =>
      cases h
      exact .inl hy
    | cons z before =>
      cases h
      refine .inr ⟨hfirst [] x before rfl, before, y, after, rfl, hy, fun earlier w later hw => ?_⟩
      exact hfirst (x :: earlier) w later (by rw [hw]; rfl)
  · rintro (h | ⟨hx, before, y, after, rfl, hy, hfirst⟩)
    · exact ⟨[], x, xs, rfl, h, fun earlier y later hy => by cases earlier <;> cases hy⟩
    · refine ⟨x :: before, y, after, rfl, hy, fun earlier w later hw => ?_⟩
      cases earlier with
      | nil =>
        cases hw
        exact hx
      | cons z earlier =>
        cases hw
        exact hfirst earlier w later rfl

/-- Some element has a fault exactly where one of them has the first. -/
theorem exists_iff {xs : List α} : (∃ e, FirstFault faults xs e) ↔
    ∃ before x after, xs = before ++ x :: after ∧ ∃ e, faults before x e := by
  induction xs generalizing faults with
  | nil => simp
  | cons x xs ih =>
    constructor
    · rintro ⟨e, before, y, after, h, hy, _⟩
      exact ⟨before, y, after, h, e, hy⟩
    · rintro ⟨before, y, after, h, e, hy⟩
      by_cases hx : ∃ e', faults [] x e'
      · obtain ⟨e', hx⟩ := hx
        exact ⟨e', cons_iff.2 (.inl hx)⟩
      · cases before with
        | nil =>
          cases h
          exact absurd ⟨e, hy⟩ hx
        | cons z before =>
          cases h
          have hrest : ∃ e', FirstFault (fun before => faults (x :: before)) (before ++ y :: after) e' :=
            ih.2 ⟨before, y, after, rfl, e, hy⟩
          obtain ⟨e', he'⟩ := hrest
          exact ⟨e', cons_iff.2 (.inr ⟨not_exists.1 hx, he'⟩)⟩

end FirstFault

namespace Pass

/-! ### What can end a pass -/

/-- The marked functions that a pass takes out: those inside no other, in a file that it looks at. -/
def Takes (c : Config) (a : Artifact) (f : Tree) : Prop :=
  c.accepts a.path = true ∧ ∃ tree, Js.parse a.source = some tree ∧ IsOutermost (markers c.directive tree) f

/-- The identifier of a function in the file of a path, if it has a name of its own. -/
def idOf? (path : Text) (f : Tree) : Option Text := f.functionName?.map (functionId path)

/-- Whether a function of one of the files takes an identifier. -/
def TakenIn (c : Config) (as : List Artifact) (id : Text) : Prop :=
  ∃ a ∈ as, ∃ f, Takes c a f ∧ idOf? a.path f = some id

/-- The fault of one function, where `taken` are the identifiers of those before it. -/
inductive Blocks (c : Config) (a : Artifact) (taken : Text → Prop) (f : Tree) : PassFault → Prop
  | unnamed {kind : Js.FunctionKind} (hkind : f.functionKind? = some kind)
    (hname : f.functionName? = none) :
    Blocks c a taken f (.unnamed a.path (Extracted.lineOf a.source f) kind)
  | duplicate {id : Text} (hstrict : c.strictDuplicates = true) (hid : idOf? a.path f = some id)
    (htaken : taken id) :
    Blocks c a taken f (.duplicate a.path (Extracted.lineOf a.source f) id)

/-- The identifiers that are taken when the function at byte `n` of a file comes up, where `taken` are
those of the files before. -/
def TakenAt (c : Config) (a : Artifact) (taken : Text → Prop) (n : Nat) (id : Text) : Prop :=
  taken id ∨ ∃ f, Takes c a f ∧ f.start < n ∧ idOf? a.path f = some id

/-- The first fault of a file, where `taken` are the identifiers of the files before it. -/
inductive Stops (c : Config) (taken : Text → Prop) (a : Artifact) : PassFault → Prop
  | broken {fault : Js.Fault} (haccepts : c.accepts a.path = true) (hread : Js.read a.source = .error fault) :
    Stops c taken a (.broken a.path fault)
  | blocked {f : Tree} {e : PassFault} (hf : Takes c a f) (h : Blocks c a (TakenAt c a taken f.start) f e)
    (hfirst : ∀ g, Takes c a g → g.start < f.start → ∀ e', ¬ Blocks c a (TakenAt c a taken g.start) g e') :
    Stops c taken a e

/-! ### Functions one after another -/

variable {p q : Pass} {a : Artifact} {f : Tree} {e : PassFault}

/-- The identifiers that a pass has registered. -/
def registered (p : Pass) (id : Text) : Prop := (p.registry.get? id).isSome = true

theorem Adds.registered_iff {xs : List Record} (h : Adds p q xs) {id : Text} :
    q.registered id ↔ p.registered id ∨ ∃ x ∈ xs, x.id = id := by
  simp [registered, h.registry, Registry.get?_addAll]

theorem ofFunction?_id (path source : Text) (f : Tree) :
    (Extracted.ofFunction? path source f).map (·.id) = idOf? path f := by
  rw [Extracted.ofFunction?, Option.map_map]
  rfl

private theorem id_of_extract {path source : Text} {x : Extracted} (h : extract path source f = .ok x) :
    idOf? path f = some x.id := by
  rw [← ofFunction?_id, extract_ok h, Option.map_some]

/-- A function ends a pass exactly with its fault. -/
theorem takeOne_error_iff (hf : f.isFunction = true) :
    (takeOne a.path a.source p f).2 = .error e ↔ Blocks p.config a p.registered f e := by
  obtain ⟨kind, hkind⟩ := Option.isSome_iff_exists.1 hf
  cases hname : f.functionName? with
  | none =>
    have hnone : extract a.path a.source f = .error (.unnamed a.path (Extracted.lineOf a.source f) kind) := by
      simp [extract, Extracted.ofFunction?, hname, hkind]
    rw [takeOne_error hnone]
    constructor
    · intro h
      cases h
      exact .unnamed hkind hname
    · intro h
      cases h with
      | unnamed hkind' _ =>
        cases hkind.symm.trans hkind'
        rfl
      | duplicate _ hid _ => simp [idOf?, hname] at hid
  | some name =>
    obtain ⟨x, hx, hline⟩ : ∃ x, extract a.path a.source f = .ok x ∧
        x.line = Extracted.lineOf a.source f := by
      simp [extract, Extracted.ofFunction?, hname]
    have hid := id_of_extract hx
    have hblocks : Blocks p.config a p.registered f e ↔ p.config.strictDuplicates = true ∧
        p.registered x.id ∧ e = .duplicate a.path x.line x.id := by
      constructor
      · intro h
        cases h with
        | unnamed _ hname' => simp [hname] at hname'
        | duplicate hstrict hid' htaken =>
          cases hid.symm.trans hid'
          exact ⟨hstrict, htaken, hline ▸ rfl⟩
      · rintro ⟨hstrict, htaken, rfl⟩
        exact hline ▸ .duplicate hstrict hid htaken
    rw [hblocks]
    cases hget : p.registry.get? x.id with
    | none =>
      rw [takeOne_fresh hx hget]
      simp [registered, hget]
    | some kept =>
      rw [takeOne_taken hx hget]
      by_cases hstrict : p.config.strictDuplicates = true
      · simp [hstrict, registered, hget, eq_comm]
      · simp [hstrict]

private theorem takeOne_ok_registered {x : Extracted} (h : takeOne a.path a.source p f = (q, .ok x))
    {id : Text} : q.registered id ↔ p.registered id ∨ idOf? a.path f = some id := by
  have hid : idOf? a.path f = some x.id := by
    unfold takeOne at h
    split at h
    · cases h
    · rename_i y hy
      split at h <;> cases h
      exact id_of_extract hy
  rw [(takeOne_adds h).registered_iff, hid]
  simp [Extracted.record]

/-- The fault of a function behind others of its file, where `taken` are the identifiers of the files
before it. -/
def BlocksAfter (c : Config) (a : Artifact) (taken : Text → Prop) (before : List Tree) (f : Tree) :
    PassFault → Prop :=
  Blocks c a (fun id => taken id ∨ ∃ g ∈ before, idOf? a.path g = some id) f

/-- Functions one after another end a pass exactly with the first fault among them. -/
theorem takeEach_error_iff {fs : List Tree} (hfs : ∀ f ∈ fs, f.isFunction = true) :
    (takeEach a.path a.source p fs).2 = .error e ↔
      FirstFault (BlocksAfter p.config a p.registered) fs e := by
  induction fs generalizing p with
  | nil => simp [takeEach]
  | cons f fs ih =>
    have hone := fun e => takeOne_error_iff (p := p) (a := a) (e := e) (hfs f (by simp))
    have hrest := fun g hg => hfs g (List.mem_cons_of_mem f hg)
    rw [FirstFault.cons_iff, takeEach]
    simp only [BlocksAfter, List.not_mem_nil, false_and, exists_false, or_false]
    rcases htake : takeOne a.path a.source p f with ⟨q, e' | x⟩
    · rw [htake] at hone
      simp only [Except.error.injEq] at hone
      simp only [← hone, Except.error.injEq]
      simp
    · rw [htake] at hone
      simp only [reduceCtorEq, false_iff] at hone
      have hconfig := takeOne_config a.path a.source p f
      rw [htake] at hconfig
      simp only [hone, false_or, not_false_eq_true, implies_true, true_and]
      have hmap : ∀ r : Pass × Except PassFault (List Extracted),
          (r.map id (·.map (x :: ·))).2 = .error e ↔ r.2 = .error e := by
        rintro ⟨q', e' | xs⟩ <;> simp [Except.map]
      rw [hmap, ih hrest]
      have htaken (before : List Tree) (id : Text) :
          (q.registered id ∨ ∃ g ∈ before, idOf? a.path g = some id) ↔
            p.registered id ∨ ∃ g ∈ f :: before, idOf? a.path g = some id := by
        rw [takeOne_ok_registered htake]
        simp [or_assoc]
      have hq : q.config = p.config := hconfig
      unfold BlocksAfter
      simp only [hq, htaken]

/-! ### Files -/

/-- The taken functions of a file that stand before one of them are those that start before it. -/
private theorem taken_before_iff {fs before after : List Tree} {n : Nat}
    (h : Text.Apart n (fs.map Tree.span)) (hfs : fs = before ++ f :: after) {g : Tree} :
    g ∈ before ↔ g ∈ fs ∧ g.start < f.start := by
  have hpairs := List.pairwise_map.1 h.pairwise
  subst hfs
  obtain ⟨_, hright, hleft⟩ := List.pairwise_append.1 hpairs
  constructor
  · intro hg
    have := hleft g hg f (by simp)
    exact ⟨by simp [hg], Nat.lt_of_lt_of_le this.1 this.2⟩
  · rintro ⟨hg, hlt⟩
    rcases List.mem_append.1 hg with hg | hg
    · exact hg
    · rcases List.mem_cons.1 hg with rfl | hg
      · exact absurd hlt (Nat.lt_irrefl _)
      · have := (List.pairwise_cons.1 hright).1 g hg
        simp only [Tree.span] at this
        omega

theorem takes_iff {c : Config} {tree : Tree} (haccepts : c.accepts a.path = true)
    (hparse : Js.parse a.source = some tree) : Takes c a f ↔ f ∈ topmost c.directive tree := by
  rw [Directive.mem_topmost_iff hparse]
  simp [Takes, haccepts, hparse]

private theorem blocksAfter_iff {c : Config} {taken : Text → Prop} {tree : Tree} {before after : List Tree}
    (haccepts : c.accepts a.path = true) (hparse : Js.parse a.source = some tree)
    (h : topmost c.directive tree = before ++ f :: after) :
    BlocksAfter c a taken before f e ↔ Blocks c a (TakenAt c a taken f.start) f e := by
  have htaken (id : Text) : (taken id ∨ ∃ g ∈ before, idOf? a.path g = some id) ↔
      TakenAt c a taken f.start id := by
    have hapart := (topmost_fits c.directive hparse).1
    simp [TakenAt, takes_iff haccepts hparse, taken_before_iff hapart h, and_assoc]
  unfold BlocksAfter
  simp only [htaken]

/-- The first fault among the taken functions of a file, told by their places. -/
private theorem firstFault_iff_stops {c : Config} {taken : Text → Prop} {tree : Tree}
    (haccepts : c.accepts a.path = true) (hparse : Js.parse a.source = some tree) :
    FirstFault (BlocksAfter c a taken) (topmost c.directive tree) e ↔ Stops c taken a e := by
  have hapart := (topmost_fits c.directive hparse).1
  constructor
  · rintro ⟨before, f, after, hsplit, hf, hfirst⟩
    refine .blocked ((takes_iff haccepts hparse).2 (by simp [hsplit]))
      ((blocksAfter_iff haccepts hparse hsplit).1 hf) fun g hg hlt e' hblocks => ?_
    have hg := (taken_before_iff hapart hsplit).2 ⟨(takes_iff haccepts hparse).1 hg, hlt⟩
    obtain ⟨earlier, later, rfl⟩ := List.append_of_mem hg
    have hsplit' : topmost c.directive tree = earlier ++ g :: (later ++ f :: after) := by simp [hsplit]
    exact hfirst earlier g later rfl e' ((blocksAfter_iff haccepts hparse hsplit').2 hblocks)
  · intro h
    cases h with
    | broken _ hread => simp [Js.read, hparse] at hread
    | @blocked f _ hf hblocks hfirst =>
      obtain ⟨before, after, hsplit⟩ := List.append_of_mem ((takes_iff haccepts hparse).1 hf)
      refine ⟨before, f, after, hsplit, (blocksAfter_iff haccepts hparse hsplit).2 hblocks,
        fun earlier g later hg e' hblocks' => ?_⟩
      have hsplit' : topmost c.directive tree = earlier ++ g :: (later ++ f :: after) := by
        simp [hsplit, hg]
      obtain ⟨hmem, hlt⟩ := (taken_before_iff hapart hsplit).1 (by simp [hg] : g ∈ before)
      exact hfirst g ((takes_iff haccepts hparse).2 hmem) hlt e'
        ((blocksAfter_iff haccepts hparse hsplit').1 hblocks')

private theorem read_eq_error_iff {t : Text} : (∃ fault, Js.read t = .error fault) ↔ Js.parse t = none := by
  unfold Js.read
  cases Js.parse t <;> simp

/-- A file has a first fault where it has any. -/
private theorem exists_stops_iff {c : Config} {taken : Text → Prop} :
    (∃ e, Stops c taken a e) ↔ c.accepts a.path = true ∧
      (Js.parse a.source = none ∨ ∃ f, Takes c a f ∧ ∃ e, Blocks c a (TakenAt c a taken f.start) f e) := by
  constructor
  · rintro ⟨e, h⟩
    cases h with
    | broken haccepts hread =>
      exact ⟨haccepts, .inl (read_eq_error_iff.1 ⟨_, hread⟩)⟩
    | @blocked f _ hf hblocks _ => exact ⟨hf.1, .inr ⟨f, hf, e, hblocks⟩⟩
  · rintro ⟨haccepts, hparse | ⟨f, hf, e, hblocks⟩⟩
    · obtain ⟨fault, hread⟩ := read_eq_error_iff.2 hparse
      exact ⟨_, .broken haccepts hread⟩
    · obtain ⟨tree, hparse, _⟩ := hf.2
      obtain ⟨before, after, hsplit⟩ := List.append_of_mem ((takes_iff haccepts hparse).1 hf)
      have hsome := (blocksAfter_iff haccepts hparse hsplit).2 hblocks
      obtain ⟨e', he'⟩ := FirstFault.exists_iff.2 ⟨before, f, after, hsplit, e, hsome⟩
      exact ⟨e', (firstFault_iff_stops haccepts hparse).1 he'⟩

/-- A file ends a pass exactly with its first fault. -/
theorem process_error_iff (haccepts : p.config.accepts a.path = true) :
    (p.process a).2 = .error e ↔ Stops p.config p.registered a e := by
  rw [process_eq]
  cases hread : Js.read a.source with
  | error fault =>
    have hparse := read_eq_error_iff.1 ⟨fault, hread⟩
    constructor
    · intro h
      cases h
      exact .broken haccepts hread
    · intro h
      cases h with
      | broken _ hread' =>
        cases hread.symm.trans hread'
        rfl
      | blocked hf =>
        obtain ⟨_, tree, htree, _⟩ := hf
        cases hparse.symm.trans htree
  | ok tree =>
    have hparse : Js.parse a.source = some tree := by
      unfold Js.read at hread
      split at hread
      · cases hread
        assumption
      · cases hread
    have hfs : ∀ f ∈ topmost p.config.directive tree, f.isFunction = true := fun f hf =>
      (Bool.and_eq_true_iff.1 (topmost_placed p.config.directive hparse f hf).2).1
    have hmap {β : Type} (g : List Extracted → β) (r : Pass × Except PassFault (List Extracted)) :
        (r.map id (·.map g)).2 = .error e ↔ r.2 = .error e := by
      rcases r with ⟨q, e' | xs⟩ <;> simp [Except.map]
    rw [hmap, takeEach_error_iff hfs]
    exact firstFault_iff_stops haccepts hparse

private theorem takenIn_cons {c : Config} {as : List Artifact} {id : Text} :
    TakenIn c (a :: as) id ↔ (∃ f, Takes c a f ∧ idOf? a.path f = some id) ∨ TakenIn c as id := by
  simp [TakenIn]

private theorem registered_of_process_ok {r : Option Text} (haccepts : p.config.accepts a.path = true)
    (h : p.process a = (q, .ok r)) {id : Text} :
    q.registered id ↔ p.registered id ∨ ∃ f, Takes p.config a f ∧ idOf? a.path f = some id := by
  obtain ⟨hadds, hsound, _⟩ := process_ok haccepts h
  obtain ⟨tree, hparse, _⟩ := isSound_iff.1 hsound
  have htakes : takes p.config a =
      (topmost p.config.directive tree).filterMap (Extracted.ofFunction? a.path a.source) := by
    simp [takes, haccepts, hparse]
  rw [hadds.registered_iff, htakes]
  refine or_congr_right ⟨?_, ?_⟩
  · rintro ⟨x, hx, rfl⟩
    obtain ⟨y, hy, rfl⟩ := List.mem_map.1 hx
    obtain ⟨f, hf, hfy⟩ := List.mem_filterMap.1 hy
    exact ⟨f, (takes_iff haccepts hparse).2 hf, by rw [← ofFunction?_id a.path a.source, hfy]; rfl⟩
  · rintro ⟨f, hf, hid⟩
    rw [← ofFunction?_id a.path a.source] at hid
    obtain ⟨y, hfy, rfl⟩ := Option.map_eq_some_iff.1 hid
    have hy := List.mem_filterMap.2 ⟨f, (takes_iff haccepts hparse).1 hf, hfy⟩
    exact ⟨y.record a.path, List.mem_map_of_mem hy, rfl⟩

/-- Files one after another end a pass exactly with the first fault among them. -/
theorem processAll_error_iff {as : List Artifact} :
    processAll p as = .error e ↔
      FirstFault (fun before => Stops p.config (fun id => p.registered id ∨ TakenIn p.config before id))
        as e := by
  induction as generalizing p with
  | nil => simp [processAll]
  | cons a as ih =>
    have hnone (id : Text) : ¬ TakenIn p.config [] id := by simp [TakenIn]
    rw [FirstFault.cons_iff, processAll_cons]
    simp only [hnone, or_false, takenIn_cons, ← or_assoc]
    have hmap {α β : Type} {r : Except PassFault α} {g : α → β} : r.map g = .error e ↔ r = .error e := by
      cases r <;> simp [Except.map]
    by_cases haccepts : p.config.accepts a.path = true
    · rw [if_pos haccepts]
      have hone := fun e => process_error_iff (e := e) haccepts
      rcases hprocess : p.process a with ⟨q, e' | changed⟩
      · rw [hprocess] at hone
        simp only [Except.error.injEq] at hone
        change Except.error e' = .error e ↔ _
        simp [← hone]
      · rw [hprocess] at hone
        simp only [reduceCtorEq, false_iff] at hone
        have hconfig := (process_ok haccepts hprocess).1.config
        change (processAll q as).map _ = .error e ↔ _
        rw [hmap, ih]
        simp only [hone, false_or, not_false_eq_true, implies_true, true_and, hconfig,
          registered_of_process_ok haccepts hprocess]
    · have hstops (taken : Text → Prop) (e : PassFault) : ¬ Stops p.config taken a e := by
        rintro (⟨h, _⟩ | ⟨⟨h, _⟩, _, _⟩) <;> exact haccepts h
      have htakes (f : Tree) : ¬ Takes p.config a f := fun h => haccepts h.1
      rw [if_neg haccepts, hmap, ih]
      simp only [hstops, htakes, false_and, exists_false, or_false, false_or, not_false_eq_true,
        implies_true, true_and]

/-- A pass fails exactly where some file that it looks at does not parse, or has an outermost marked function
without a name of its own, or, where identifiers must not clash, one whose identifier an outermost marked
function before it has taken. It fails with the first such fault: that of the first such file and, in it, the
fault of the file itself or else that of the first such function. -/
theorem runPass_error_iff (c : Config) (as : List Artifact) :
    ((∃ e, runPass c as = .error e) ↔
      ∃ before a after, as = before ++ a :: after ∧ c.accepts a.path = true ∧
        (Js.parse a.source = none ∨
          ∃ f, Takes c a f ∧ ∃ e, Blocks c a (TakenAt c a (TakenIn c before) f.start) f e)) ∧
    ∀ e, runPass c as = .error e ↔ FirstFault (fun before => Stops c (TakenIn c before)) as e := by
  have hfirst (e : PassFault) :
      runPass c as = .error e ↔ FirstFault (fun before => Stops c (TakenIn c before)) as e := by
    have hnone (id : Text) : ¬ registered { config := c } id := by simp [registered]
    have hall := @processAll_error_iff { config := c } e as
    simp only [hnone, false_or] at hall
    rw [← hall, runPass, run_eq]
    cases processAll { config := c } as <;> simp [Except.map]
  refine ⟨?_, hfirst⟩
  simp only [hfirst, FirstFault.exists_iff, exists_stops_iff]

end Pass
end ServerSplit
