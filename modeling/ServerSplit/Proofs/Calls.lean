import ServerSplit.Proofs.Changes
import ServerSplit.Proofs.Run

/-! A pass that is given one file after another, whether or not it fails on some of them. Records stay as
they are, reports are only added, and a file on which the pass fails is left alone. -/
namespace ServerSplit

open Js (Tree)

/-- Every record has the identifier that its file and its name make. -/
def Registry.Filed (r : Registry) : Prop := ∀ x ∈ r.records, x.id = functionId x.artifact x.name

namespace Pass

/-! ### One call -/

/-- What a call leaves and what it answers: whether the file changed. -/
structure Call where
  pass : Pass
  artifact : Artifact
  answer : Except PassFault Bool

/-- Rewrites a file in its place. -/
def call (p : Pass) (a : Artifact) : Call :=
  match p.process a with
  | (q, .error e) => ⟨q, a, .error e⟩
  | (q, .ok none) => ⟨q, a, .ok false⟩
  | (q, .ok (some new)) => ⟨q, ⟨a.path, new⟩, .ok true⟩

/-- The pass after calls for files one after another; a failed one does not end them. -/
def callAll (p : Pass) (as : List Artifact) : Pass := as.foldl (fun p a => (p.call a).pass) p

theorem call_pass (p : Pass) (a : Artifact) : (p.call a).pass = (p.process a).1 := by
  unfold call
  split <;> rename_i h <;> rw [h]

/-- A failed call leaves the file as it is. -/
theorem call_failed {p : Pass} {a : Artifact} {e : PassFault} (h : (p.call a).answer = .error e) :
    (p.call a).artifact = a := by
  unfold call at h ⊢
  split at h
  · rfl
  · cases h
  · cases h

/-- A call says that the file changed where it did. -/
theorem call_answer_iff (p : Pass) (a : Artifact) :
    (p.call a).answer = .ok true ↔ (p.call a).artifact.source ≠ a.source := by
  unfold call
  split
  · simp
  · simp
  · rename_i h
    simpa using process_changes h

/-! ### What a call keeps -/

/-- `q` is `p` at a later time: what was registered is as it was, and reports have only been added. -/
structure Later (p q : Pass) : Prop where
  config : q.config = p.config
  records : ∀ x ∈ p.registry.records, x ∈ q.registry.records
  diagnostics : p.diagnostics <+: q.diagnostics
  filed : p.registry.Filed → q.registry.Filed

theorem Later.refl (p : Pass) : Later p p := ⟨rfl, fun _ h => h, List.prefix_refl _, id⟩

theorem Later.trans {p q r : Pass} (h : Later p q) (h' : Later q r) : Later p r where
  config := h'.config.trans h.config
  records x hx := h'.records x (h.records x hx)
  diagnostics := h.diagnostics.trans h'.diagnostics
  filed hp := h'.filed (h.filed hp)

theorem reportAll_later (p : Pass) (ds : List Diagnostic) : Later p (p.reportAll ds) where
  config := rfl
  records _ h := h
  diagnostics := List.prefix_append _ _
  filed := id

theorem register_later {p : Pass} {path : Text} {x : Extracted} (hx : x.id = functionId path x.name) :
    Later p (p.register path x).1 := by
  rw [register_eq]
  cases hget : p.registry.get? x.id with
  | none =>
    have hnone : p.registry.get? (x.record path).id = none := hget
    refine ⟨rfl, fun y hy => (Registry.mem_register hnone).2 (.inl hy), List.prefix_refl _, ?_⟩
    intro hp y hy
    rcases (Registry.mem_register hnone).1 hy with hy | rfl
    · exact hp y hy
    · exact hx
  | some kept =>
    dsimp only
    split
    · exact .refl p
    · exact reportAll_later p [dropped path x kept]

theorem takeOne_later (path source : Text) (p : Pass) (f : Tree) :
    Later p (takeOne path source p f).1 := by
  unfold takeOne
  split
  · exact .refl p
  · rename_i x hx
    have hregister := register_later (p := p) (id_ofFunction (extract_ok hx))
    split
    · rename_i hq
      rw [hq] at hregister
      exact hregister
    · rename_i hq
      rw [hq] at hregister
      exact hregister.trans (reportAll_later _ _)

theorem takeEach_later (path source : Text) (p : Pass) (fs : List Tree) :
    Later p (takeEach path source p fs).1 := by
  induction fs generalizing p with
  | nil => exact .refl p
  | cons f fs ih =>
    have hone := takeOne_later path source p f
    unfold takeEach
    split
    · rename_i hq
      rw [hq] at hone
      exact hone
    · rename_i q x hq
      rw [hq] at hone
      exact hone.trans (ih q)

/-- Whether or not a call fails, it only adds to the pass. -/
theorem call_later (p : Pass) (a : Artifact) : Later p (p.call a).pass := by
  rw [call_pass, process_eq]
  split
  · exact .refl p
  · exact (reportAll_later p _).trans (takeEach_later _ _ _ _)

theorem callAll_later (p : Pass) (as : List Artifact) : Later p (p.callAll as) := by
  induction as generalizing p with
  | nil => exact .refl p
  | cons a as ih => exact (call_later p a).trans (ih (p.call a).pass)

/-- A pass over files is a run of calls for those that it looks at. -/
theorem processAll_calls {p q : Pass} {as done : List Artifact} {rewritten : List Text} {n : Nat}
    (h : processAll p as = .ok (q, done, rewritten, n)) :
    q = p.callAll (as.filter (p.config.accepts ·.path)) := by
  induction as generalizing p done rewritten n with
  | nil => cases h; rfl
  | cons a as ih =>
    rw [processAll_cons] at h
    split at h
    · rename_i haccepts
      obtain ⟨⟨p', changed⟩, hprocess, h⟩ := exists_of_bind h
      obtain ⟨⟨q', done', rewritten', n'⟩, hrest, he⟩ := exists_of_map h
      obtain rfl : q' = q := congrArg Prod.fst he
      have hpass : (p.call a).pass = p' := by rw [call_pass, settled_eq_ok hprocess]
      have hconfig : p'.config = p.config := hpass ▸ (call_later p a).config
      rw [List.filter_cons, if_pos haccepts, ih hrest, hconfig, ← hpass]
      rfl
    · rename_i haccepts
      obtain ⟨⟨q', done', rewritten', n'⟩, hrest, he⟩ := exists_of_map h
      obtain rfl : q' = q := congrArg Prod.fst he
      rw [List.filter_cons, if_neg haccepts]
      exact ih hrest

/-! ### The states of a pass -/

/-- The state that a pass reaches by calls for files one after another. -/
def reached (c : Config) (as : List Artifact) : Pass := callAll { config := c } as

theorem reached_later (c : Config) (as bs : List Artifact) : Later (reached c as) (reached c (as ++ bs)) := by
  unfold reached callAll
  rw [List.foldl_append]
  exact callAll_later _ bs

theorem reached_filed (c : Config) (as : List Artifact) : (reached c as).registry.Filed :=
  (callAll_later { config := c } as).filed fun _ h => nomatch h

/-- In every state that a pass reaches, whatever the files and on however many of them it failed, a record
is found under its own identifier and no other, which is that of its file and its name. No later call
changes or removes a record, and reports are only added. A call that fails leaves the file as it is, and
one that does not says that the file changed exactly where its source is another. -/
theorem reached_keeps (c : Config) (before later : List Artifact) (a : Artifact) :
    (∀ id x, (reached c before).registry.get? id = some x ↔
      x ∈ (reached c before).registry.records ∧ x.id = id) ∧
    (∀ x ∈ (reached c before).registry.records, x.id = functionId x.artifact x.name) ∧
    (∀ id x, (reached c before).registry.get? id = some x →
      (reached c (before ++ later)).registry.get? id = some x) ∧
    (reached c before).diagnostics <+: (reached c (before ++ later)).diagnostics ∧
    (∀ e, ((reached c before).call a).answer = .error e → ((reached c before).call a).artifact = a) ∧
    (((reached c before).call a).answer = .ok true ↔
      ((reached c before).call a).artifact.source ≠ a.source) := by
  have hlater := reached_later c before later
  refine ⟨fun id x => Registry.get?_eq_some_iff, reached_filed c before, ?_, hlater.diagnostics,
    fun e => call_failed, call_answer_iff _ a⟩
  intro id x hx
  obtain ⟨hmem, hid⟩ := Registry.get?_eq_some_iff.1 hx
  exact Registry.get?_eq_some_iff.2 ⟨hlater.records x hmem, hid⟩

end Pass
end ServerSplit
