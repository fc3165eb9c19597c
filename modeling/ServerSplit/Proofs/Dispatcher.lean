import ServerSplit.Dispatcher
import ServerSplit.Proofs.Registry

/-! A dispatcher and a registry that are given the same identifiers in the same order hold the same ones.
The first handler with an identifier answers for it, as the first record with it is kept. -/
namespace ServerSplit

namespace Dispatcher

@[simp] theorem get?_empty (id : Text) : empty.get? id = none := rfl

@[simp] theorem size_empty : empty.size = 0 := rfl

/-- A handler answers for its identifier, where none did before. -/
theorem get?_register (d : Dispatcher) (id key : Text) (h : Handler) :
    (d.register id h).1.get? key = (d.get? key).or (if id = key then some h else none) := by
  unfold register contains
  split
  · rename_i hsome
    by_cases hid : id = key
    · subst hid
      rw [Option.or_of_isSome hsome]
    · simp [hid]
  · simp only [get?, List.find?_append]
    by_cases hid : id = key <;> cases d.handlers.find? (·.1 = key) <;> simp [hid]

theorem size_register (d : Dispatcher) (id : Text) (h : Handler) :
    (d.register id h).1.size = d.size + if d.contains id then 0 else 1 := by
  unfold register size
  split <;> simp

theorem register_answer (d : Dispatcher) (id : Text) (h : Handler) : (d.register id h).2 = !d.contains id := by
  unfold register
  split <;> simp_all

/-- The dispatcher after handlers are registered one after another. -/
def addAll (d : Dispatcher) (hs : List (Text × Handler)) : Dispatcher :=
  hs.foldl (fun d x => (d.register x.1 x.2).1) d

/-- An identifier belongs to the first handler with it. -/
theorem get?_addAll (d : Dispatcher) (hs : List (Text × Handler)) (id : Text) :
    (d.addAll hs).get? id = (d.get? id).or ((hs.find? (·.1 = id)).map (·.2)) := by
  induction hs generalizing d with
  | nil => simp [addAll]
  | cons x hs ih =>
    have hstep : d.addAll (x :: hs) = (d.register x.1 x.2).1.addAll hs := rfl
    rw [hstep, ih, get?_register, Option.or_assoc]
    by_cases hx : x.1 = id <;> simp [hx]

/-! ### Calls -/

theorem invoke_eq (d : Dispatcher) (id : Text) (args : List Json) :
    d.invoke id args =
      match d.get? id with
      | none => .error (.unknown id)
      | some h => (h args).mapError (.failed id) := by
  unfold invoke
  cases d.get? id with
  | none => rfl
  | some h =>
    dsimp only
    cases h args <;> rfl

/-- A call is told that its identifier is unknown where no handler has it. -/
theorem invoke_unknown_iff {d : Dispatcher} {id key : Text} {args : List Json} :
    d.invoke id args = .error (.unknown key) ↔ d.contains id = false ∧ key = id := by
  rw [invoke_eq, contains]
  cases d.get? id with
  | none => simp [eq_comm]
  | some h =>
    dsimp only
    cases h args <;> simp [Except.mapError]

/-! ### Beside a registry -/

/-- A dispatcher and a registry that hold the same identifiers. -/
structure Matches (d : Dispatcher) (r : Registry) : Prop where
  contains : ∀ id, d.contains id = r.contains id
  size : d.size = r.size

theorem Matches.empty : Matches .empty .empty := ⟨fun _ => rfl, rfl⟩

/-- One registration on either side is answered alike. -/
theorem Matches.answer {d : Dispatcher} {r : Registry} (hm : Matches d r) (x : Record) (h : Handler) :
    (d.register x.id h).2 = (r.register x).2.isNone := by
  rw [register_answer, hm.contains, Registry.contains]
  cases hx : r.get? x.id with
  | none => simp [Registry.register_of_none hx]
  | some kept => simp [Registry.register_of_some hx]

theorem Matches.register {d : Dispatcher} {r : Registry} (hm : Matches d r) (x : Record) (h : Handler) :
    Matches (d.register x.id h).1 (r.register x).1 where
  contains id := by
    have hid : (d.get? id).isSome = (r.get? id).isSome := hm.contains id
    rw [Dispatcher.contains, Registry.contains, get?_register, Registry.get?_register, Option.isSome_or,
      Option.isSome_or, hid]
    split <;> rfl
  size := by
    rw [size_register, Registry.size_register, hm.size, hm.contains]
    rfl

theorem Matches.addAll {d : Dispatcher} {r : Registry} (hm : Matches d r) (xs : List (Record × Handler)) :
    Matches (d.addAll (xs.map fun x => (x.1.id, x.2))) (r.addAll (xs.map Prod.fst)) := by
  induction xs generalizing d r with
  | nil => exact hm
  | cons x xs ih => exact ih (hm.register x.1 x.2)

theorem mem_missing_iff {d : Dispatcher} {r : Registry} {id : Text} :
    id ∈ d.missing r ↔ r.contains id = true ∧ d.contains id = false := by
  have hids : id ∈ r.ids ↔ r.contains id = true := by
    simp [Registry.ids, Registry.contains, Registry.get?]
  simp [missing, hids]

theorem missing_ordered (d : Dispatcher) (r : Registry) : (d.missing r).Pairwise (· < ·) :=
  (List.pairwise_map.2 r.ordered).filter _

theorem Matches.missing {d : Dispatcher} {r : Registry} (hm : Matches d r) : d.missing r = [] := by
  refine List.eq_nil_iff_forall_not_mem.2 fun id hid => ?_
  obtain ⟨hr, hd⟩ := mem_missing_iff.1 hid
  rw [hm.contains, hr] at hd
  cases hd

/-- Handlers and records with the same identifiers are registered side by side. After any of them the next
one is new to the dispatcher exactly where it is new to the registry, both hold the same identifiers and as
many, and none is missing; a call runs the first handler with its identifier, and is told that it is unknown
exactly where there was none. Of a dispatcher and a registry that have nothing to do with one another, the
missing identifiers are, in order and each once, those of the registry whose calls are told so. -/
theorem registered_alike (xs : List (Record × Handler)) (d : Dispatcher) (r : Registry) :
    let served := empty.addAll (xs.map fun x => (x.1.id, x.2))
    let kept := Registry.empty.addAll (xs.map Prod.fst)
    (∀ x h, (served.register x.id h).2 = true ↔ (kept.register x).2 = none) ∧
      (∀ id, served.contains id = kept.contains id) ∧
      served.size = kept.size ∧
      served.missing kept = [] ∧
      (∀ id args, served.invoke id args =
        match xs.find? (·.1.id = id) with
        | none => .error (.unknown id)
        | some x => (x.2 args).mapError (.failed id)) ∧
      (∀ id args, (∃ key, served.invoke id args = .error (.unknown key)) ↔ ∀ x ∈ xs, x.1.id ≠ id) ∧
      (d.missing r).Pairwise (· < ·) ∧
      ∀ id args, id ∈ d.missing r ↔ r.contains id = true ∧ d.invoke id args = .error (.unknown id) := by
  intro served kept
  have hm : Matches served kept := Matches.empty.addAll xs
  have hfirst (id : Text) : served.get? id = (xs.find? (·.1.id = id)).map Prod.snd := by
    rw [get?_addAll, get?_empty, Option.none_or, List.find?_map, Option.map_map]
    rfl
  have hinvoke (id : Text) (args : List Json) : served.invoke id args =
      match xs.find? (·.1.id = id) with
      | none => .error (.unknown id)
      | some x => (x.2 args).mapError (.failed id) := by
    rw [invoke_eq, hfirst]
    cases xs.find? (·.1.id = id) <;> rfl
  refine ⟨fun x h => ?_, hm.contains, hm.size, hm.missing, hinvoke, fun id args => ?_, missing_ordered d r,
    fun id args => ?_⟩
  · rw [hm.answer, Option.isNone_iff_eq_none]
  · simp only [invoke_unknown_iff, exists_and_left, exists_eq, and_true]
    rw [contains, hfirst]
    simp
  · rw [mem_missing_iff, invoke_unknown_iff]
    simp

end Dispatcher

end ServerSplit
