import Mathlib.Data.List.Dedup
import Mathlib.Data.List.Find
import Mathlib.Data.List.Nodup
import Mathlib.Data.List.Sort
import ServerSplit.Proofs.Text.Utf8
import ServerSplit.Registry

/-! The first record with an identifier is kept. Whatever is registered behind it changes no answer that
a registry has given. -/
namespace ServerSplit.Registry

@[simp] theorem get?_empty (id : Text) : empty.get? id = none := rfl

@[simp] theorem size_empty : empty.size = 0 := rfl

private theorem find?_insertRecord {x : Record} {ys : List Record}
    (h : ys.find? (·.id = x.id) = none) (id : Text) :
    (insertRecord x ys).find? (·.id = id) =
      (ys.find? (·.id = id)).or (if x.id = id then some x else none) := by
  induction ys with
  | nil => by_cases hx : x.id = id <;> simp [insertRecord, hx]
  | cons y ys ih =>
    have hy : y.id ≠ x.id := by
      intro he
      simp [he] at h
    have hys : ys.find? (·.id = x.id) = none := by simpa [hy] using h
    unfold insertRecord
    split
    · by_cases hx : x.id = id
      · subst hx
        rw [h]
        simp
      · simp [hx]
    · rw [if_neg hy.symm]
      by_cases hid : y.id = id
      · simp [hid]
      · simpa [hid] using ih hys

theorem register_of_some {r : Registry} {x kept : Record} (h : r.get? x.id = some kept) :
    r.register x = (r, some kept) := by
  unfold register
  split <;> simp_all

theorem register_of_none {r : Registry} {x : Record} (h : r.get? x.id = none) :
    (r.register x).2 = none := by
  unfold register
  split <;> simp_all

/-- A record answers for its identifier, where none did before. -/
theorem get?_register (r : Registry) (x : Record) (id : Text) :
    (r.register x).1.get? id = (r.get? id).or (if x.id = id then some x else none) := by
  unfold register
  split
  · rename_i kept hkept
    by_cases hx : x.id = id
    · subst hx
      simp [hkept]
    · simp [hx]
  · rename_i hnone
    exact find?_insertRecord hnone id

private theorem length_insertRecord {x : Record} {ys : List Record}
    (h : ys.find? (·.id = x.id) = none) : (insertRecord x ys).length = ys.length + 1 := by
  induction ys with
  | nil => rfl
  | cons y ys ih =>
    have hy : y.id ≠ x.id := by
      intro he
      simp [he] at h
    have hys : ys.find? (·.id = x.id) = none := by simpa [hy] using h
    unfold insertRecord
    split
    · rfl
    · rw [if_neg hy.symm, List.length_cons, ih hys, List.length_cons]

theorem size_register (r : Registry) (x : Record) :
    (r.register x).1.size = r.size + if (r.get? x.id).isSome then 0 else 1 := by
  unfold register
  split
  · rename_i kept hkept
    simp [hkept]
  · rename_i hnone
    simp only [hnone, size]
    exact length_insertRecord hnone

/-- No two records share an identifier. -/
theorem get?_of_mem {r : Registry} {x : Record} (h : x ∈ r.records) : r.get? x.id = some x := by
  obtain ⟨records, hordered⟩ := r
  simp only [get?] at h ⊢
  induction records with
  | nil => cases h
  | cons y ys ih =>
    obtain ⟨hy, hys⟩ := List.pairwise_cons.1 hordered
    rcases List.mem_cons.1 h with rfl | h
    · simp
    · have hne : y.id ≠ x.id := fun he => List.lt_irrefl _ (he ▸ hy x h)
      rw [List.find?_cons_of_neg (by simpa using hne)]
      exact ih hys h

theorem mem_of_get? {r : Registry} {id : Text} {x : Record} (h : r.get? id = some x) :
    x ∈ r.records ∧ x.id = id :=
  ⟨List.mem_of_find?_eq_some h, by simpa using List.find?_some h⟩

theorem get?_eq_some_iff {r : Registry} {id : Text} {x : Record} :
    r.get? id = some x ↔ x ∈ r.records ∧ x.id = id :=
  ⟨mem_of_get?, fun ⟨h, he⟩ => he ▸ get?_of_mem h⟩

private theorem mem_iff_get? {r : Registry} {x : Record} : x ∈ r.records ↔ r.get? x.id = some x := by
  simp [get?_eq_some_iff]

theorem mem_register {r : Registry} {x y : Record} (h : r.get? x.id = none) :
    y ∈ (r.register x).1.records ↔ y ∈ r.records ∨ y = x := by
  rw [mem_iff_get?, get?_register, mem_iff_get?]
  constructor
  · intro hy
    rcases Option.or_eq_some_iff.1 hy with hy | ⟨-, hy⟩
    · exact .inl hy
    · split at hy
      · exact .inr (Option.some.inj hy).symm
      · cases hy
  · rintro (hy | rfl)
    · rw [hy, Option.some_or]
    · rw [h, if_pos rfl, Option.none_or]

/-- Registries that answer alike are the same: their records are in order. -/
theorem ext_get? {r s : Registry} (h : ∀ id, r.get? id = s.get? id) : r = s := by
  have hmem : ∀ x, x ∈ r.records ↔ x ∈ s.records := fun x => by rw [mem_iff_get?, mem_iff_get?, h]
  have hanti : Std.Antisymm fun a b : Record => a.id < b.id :=
    ⟨fun a b hab hba => (List.lt_asymm hab hba).elim⟩
  have hirrefl : Std.Irrefl fun a b : Record => a.id < b.id := ⟨fun a => List.lt_irrefl a.id⟩
  obtain ⟨records, hr⟩ := r
  obtain ⟨records', hs⟩ := s
  simp only at hmem
  simp only [hr.eq_of_mem_iff hs hmem]

/-! ### Many records -/

/-- The registry after records are registered one after another. -/
def addAll (r : Registry) (xs : List Record) : Registry := xs.foldl (fun r x => (r.register x).1) r

/-- The records among `xs` that find their identifiers taken, with those that hold these. -/
def clashes (r : Registry) : List Record → List (Record × Record)
  | [] => []
  | x :: xs => ((r.get? x.id).map (x, ·)).toList ++ clashes (r.register x).1 xs

theorem addAll_append (r : Registry) (xs ys : List Record) :
    r.addAll (xs ++ ys) = (r.addAll xs).addAll ys := List.foldl_append

theorem clashes_append (r : Registry) (xs ys : List Record) :
    r.clashes (xs ++ ys) = r.clashes xs ++ (r.addAll xs).clashes ys := by
  induction xs generalizing r with
  | nil => rfl
  | cons x xs ih => simp [clashes, ih, addAll]

/-- An identifier belongs to the first record with it. -/
theorem get?_addAll (r : Registry) (xs : List Record) (id : Text) :
    (r.addAll xs).get? id = (r.get? id).or (xs.find? (·.id = id)) := by
  induction xs generalizing r with
  | nil => simp [addAll]
  | cons x xs ih =>
    have hstep : r.addAll (x :: xs) = (r.register x).1.addAll xs := rfl
    rw [hstep, ih, get?_register, Option.or_assoc]
    by_cases hx : x.id = id <;> simp [hx]

/-- Records without common identifiers may be registered in any order. -/
theorem addAll_perm {r : Registry} {xs ys : List Record} (h : xs.Perm ys) (hids : (xs.map (·.id)).Nodup) :
    r.addAll xs = r.addAll ys := by
  refine ext_get? fun id => ?_
  have hone : {x | x ∈ xs ∧ decide (x.id = id) = true}.Subsingleton := by
    rintro x ⟨hx, hxid⟩ y ⟨hy, hyid⟩
    exact List.inj_on_of_nodup_map hids hx hy ((of_decide_eq_true hxid).trans (of_decide_eq_true hyid).symm)
  rw [get?_addAll, get?_addAll, List.find?_eq_find?_of_perm h hone]

/-- Every record is kept or clashes. -/
theorem length_clashes (r : Registry) (xs : List Record) :
    (r.clashes xs).length + (r.addAll xs).size = r.size + xs.length := by
  induction xs generalizing r with
  | nil => simp [clashes, addAll]
  | cons x xs ih =>
    have hrest := ih (r.register x).1
    have hstep : r.addAll (x :: xs) = (r.register x).1.addAll xs := rfl
    rw [size_register] at hrest
    rw [hstep, clashes, List.length_append, List.length_cons]
    cases hx : r.get? x.id with
    | none =>
      simp only [hx] at hrest
      simp at hrest ⊢
      omega
    | some kept =>
      simp only [hx] at hrest
      simp at hrest ⊢
      omega

/-- A record is found under its identifier, or it clashes with the one that is found there. -/
theorem get?_or_clash {r : Registry} {xs : List Record} {x : Record} (h : x ∈ xs) :
    ∃ kept, (r.addAll xs).get? x.id = some kept ∧ (kept = x ∨ (x, kept) ∈ r.clashes xs) := by
  induction xs generalizing r with
  | nil => cases h
  | cons y ys ih =>
    have hstep : r.addAll (y :: ys) = (r.register y).1.addAll ys := rfl
    rcases List.mem_cons.1 h with rfl | h
    · have hget : (r.addAll (x :: ys)).get? x.id = some ((r.get? x.id).getD x) := by
        rw [get?_addAll]
        cases r.get? x.id <;> simp
      refine ⟨_, hget, ?_⟩
      cases hx : r.get? x.id with
      | none => exact .inl rfl
      | some kept => exact .inr (by simp [clashes, hx])
    · obtain ⟨kept, hget, hkept⟩ := ih (r := (r.register y).1) h
      refine ⟨kept, hget, hkept.imp_right fun hk => ?_⟩
      exact List.mem_append_right _ hk

theorem answer_register (r : Registry) (x : Record) : (r.register x).2 = r.get? x.id := by
  cases h : r.get? x.id with
  | none => exact register_of_none h
  | some kept => rw [register_of_some h]

theorem mem_ids_iff {r : Registry} {id : Text} : id ∈ r.ids ↔ (r.get? id).isSome = true := by
  simp [ids, get?]

theorem ids_nodup (r : Registry) : r.ids.Nodup := by
  refine List.pairwise_map.2 (r.ordered.imp fun {x y} hlt he => ?_)
  rw [he] at hlt
  exact List.lt_irrefl _ hlt

/-- The identifiers of a registry are those of the records that were registered, each once. -/
theorem ids_addAll (xs : List Record) : (empty.addAll xs).ids.Perm (xs.map (·.id)).dedup := by
  refine (List.perm_ext_iff_of_nodup (ids_nodup _) (List.nodup_dedup _)).2 fun id => ?_
  rw [mem_ids_iff, get?_addAll, get?_empty, Option.none_or, List.mem_dedup]
  simp

/-- After any run of registrations, an identifier belongs to the first record with it, and whatever is
registered behind the run takes it from none. The next record is told the one that holds its identifier,
and nothing exactly where there is none. The records stand in strict order of the bytes of their
identifiers, they are the first ones with theirs, one for each identifier of the run, and no others. -/
theorem addAll_first (xs : List Record) :
    let r := empty.addAll xs
    (∀ id, r.get? id = xs.find? (·.id = id)) ∧
      (∀ ys id, (r.addAll ys).get? id = (xs.find? (·.id = id)).or (ys.find? (·.id = id))) ∧
      (∀ x, (r.register x).2 = xs.find? (·.id = x.id)) ∧
      (∀ x, (r.register x).2 = none ↔ x.id ∉ xs.map (·.id)) ∧
      (r.records.Pairwise fun x y => Text.bytes x.id < Text.bytes y.id) ∧
      (∀ x, x ∈ r.records ↔ xs.find? (·.id = x.id) = some x) ∧
      r.ids.Perm (xs.map (·.id)).dedup ∧
      r.size = (xs.map (·.id)).dedup.length := by
  intro r
  have hget (id : Text) : r.get? id = xs.find? (·.id = id) := by
    rw [get?_addAll, get?_empty, Option.none_or]
  have hanswer (x : Record) : (r.register x).2 = xs.find? (·.id = x.id) := by
    rw [answer_register, hget]
  have hids : r.ids.Perm (xs.map (·.id)).dedup := ids_addAll xs
  refine ⟨hget, fun ys id => ?_, hanswer, fun x => ?_, ?_, fun x => ?_, hids, ?_⟩
  · rw [get?_addAll, hget]
  · rw [hanswer, List.find?_eq_none]
    simp
  · exact r.ordered.imp Text.bytes_lt_bytes
  · rw [mem_iff_get?, hget]
  · rw [← hids.length_eq, ids, List.length_map, size]

end ServerSplit.Registry
