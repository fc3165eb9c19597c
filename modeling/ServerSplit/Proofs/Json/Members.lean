import Mathlib.Data.List.Sort
import ServerSplit.Proofs.Json.Grammar

/-! Members of an object put into place one after another. They come to stand in the order of their keys, and of
the members of one key the last one is kept. -/
namespace ServerSplit.Json

/-- Members put into those before them, one after another. -/
def insertAll (before ms : List (Text × Json)) : List (Text × Json) :=
  ms.foldl (fun before m => insertMember m.1 m.2 before) before

/-- The members stand in the order of their keys, one for each. -/
def Ordered (ms : List (Text × Json)) : Prop := ms.Pairwise fun a b => a.1 < b.1

theorem mem_insertMember {key : Text} {v : Json} {ms : List (Text × Json)} (h : Ordered ms) {m : Text × Json} :
    m ∈ insertMember key v ms ↔ m = (key, v) ∨ m ∈ ms ∧ m.1 ≠ key := by
  induction ms with
  | nil => simp [insertMember]
  | cons a ms ih =>
    obtain ⟨ha, hms⟩ := List.pairwise_cons.1 h
    rw [insertMember]
    split
    · rename_i hlt
      have hne : ∀ b ∈ a :: ms, b.1 ≠ key := by
        refine List.forall_mem_cons.2 ⟨?_, fun b hb => ?_⟩
        · rintro rfl
          exact List.lt_irrefl _ hlt
        · rintro rfl
          exact List.lt_irrefl _ (List.lt_trans hlt (ha b hb))
      rw [List.mem_cons]
      exact or_congr_right ⟨fun hm => ⟨hm, hne m hm⟩, And.left⟩
    · split
      · rename_i heq
        subst heq
        have hne : ∀ b ∈ ms, b.1 ≠ a.1 := by
          rintro b hb he
          exact List.lt_irrefl _ (he ▸ ha b hb)
        rw [List.mem_cons, List.mem_cons]
        refine or_congr_right ⟨fun hm => ⟨.inr hm, hne m hm⟩, ?_⟩
        rintro ⟨rfl | hm, hne'⟩
        · exact (hne' rfl).elim
        · exact hm
      · rename_i hne
        have ha' : a.1 ≠ key := fun he => hne he.symm
        rw [List.mem_cons, ih hms, List.mem_cons]
        constructor
        · rintro (rfl | rfl | ⟨hm, hk⟩)
          · exact .inr ⟨.inl rfl, ha'⟩
          · exact .inl rfl
          · exact .inr ⟨.inr hm, hk⟩
        · rintro (rfl | ⟨rfl | hm, hk⟩)
          · exact .inr (.inl rfl)
          · exact .inl rfl
          · exact .inr (.inr ⟨hm, hk⟩)

theorem Ordered.insertMember {key : Text} {v : Json} {ms : List (Text × Json)} (h : Ordered ms) :
    Ordered (insertMember key v ms) := by
  induction ms with
  | nil => exact List.pairwise_singleton _ _
  | cons a ms ih =>
    obtain ⟨ha, hms⟩ := List.pairwise_cons.1 h
    rw [Json.insertMember]
    split
    · rename_i hlt
      refine List.pairwise_cons.2 ⟨List.forall_mem_cons.2 ⟨hlt, fun b hb => ?_⟩, h⟩
      exact List.lt_trans hlt (ha b hb)
    · split
      · rename_i heq
        subst heq
        exact List.pairwise_cons.2 ⟨ha, hms⟩
      · rename_i hlt hne
        have hgt : a.1 < key := by
          rcases List.le_iff_lt_or_eq.1 (List.not_lt.1 hlt) with hgt | he
          · exact hgt
          · exact (hne he.symm).elim
        refine List.pairwise_cons.2 ⟨fun m hm => ?_, ih hms⟩
        rcases (mem_insertMember hms).1 hm with rfl | ⟨hm, -⟩
        · exact hgt
        · exact ha m hm

/-! ### The last member of each key -/

theorem mem_of_mem_lastOfEach {m : Text × Json} {ms : List (Text × Json)} (h : m ∈ lastOfEach ms) : m ∈ ms := by
  induction ms with
  | nil => cases h
  | cons a ms ih =>
    rw [lastOfEach] at h
    split at h
    · exact List.mem_cons_of_mem _ (ih h)
    · exact (List.mem_cons.1 h).elim (fun h => by simp [h]) fun h => List.mem_cons_of_mem _ (ih h)

theorem lastOfEach_pairwise (ms : List (Text × Json)) : (lastOfEach ms).Pairwise fun a b => a.1 ≠ b.1 := by
  induction ms with
  | nil => exact .nil
  | cons a ms ih =>
    rw [lastOfEach]
    split
    · exact ih
    · rename_i hnone
      refine List.pairwise_cons.2 ⟨fun b hb he => hnone ?_, ih⟩
      exact List.any_eq_true.2 ⟨b, mem_of_mem_lastOfEach hb, decide_eq_true he.symm⟩

/-- What members put in one after another come to: the last one of each key, and the old ones of other keys. -/
theorem insertAll_spec (before ms : List (Text × Json)) (h : Ordered before) :
    Ordered (insertAll before ms) ∧
      ∀ m, m ∈ insertAll before ms ↔ m ∈ lastOfEach ms ∨ m ∈ before ∧ ∀ a ∈ ms, a.1 ≠ m.1 := by
  induction ms generalizing before with
  | nil => exact ⟨h, by simp [insertAll, lastOfEach]⟩
  | cons a ms ih =>
    obtain ⟨hordered, hmem⟩ := ih (insertMember a.1 a.2 before) h.insertMember
    refine ⟨hordered, fun m => (hmem m).trans ?_⟩
    rw [mem_insertMember h, lastOfEach, List.forall_mem_cons]
    by_cases hany : ms.any (·.1 = a.1) = true
    · obtain ⟨b, hb, he⟩ := List.any_eq_true.1 hany
      have he : b.1 = a.1 := of_decide_eq_true he
      rw [if_pos hany]
      refine or_congr_right ⟨?_, fun ⟨hm, hne, hrest⟩ => ⟨.inr ⟨hm, hne.symm⟩, hrest⟩⟩
      rintro ⟨rfl | ⟨hm, hne⟩, hrest⟩
      · exact (hrest b hb he).elim
      · exact ⟨hm, hne.symm, hrest⟩
    · have hnone : ∀ b ∈ ms, b.1 ≠ a.1 := fun b hb he => hany (List.any_eq_true.2 ⟨b, hb, decide_eq_true he⟩)
      rw [if_neg hany, List.mem_cons]
      constructor
      · rintro (hm | ⟨rfl | ⟨hm, hne⟩, hrest⟩)
        · exact .inl (.inr hm)
        · exact .inl (.inl rfl)
        · exact .inr ⟨hm, hne.symm, hrest⟩
      · rintro ((rfl | hm) | ⟨hm, hne, hrest⟩)
        · exact .inr ⟨.inl rfl, hnone⟩
        · exact .inl hm
        · exact .inr ⟨.inr ⟨hm, hne.symm⟩, hrest⟩

theorem Ordered.eq_of_mem {ms ns : List (Text × Json)} (hms : Ordered ms) (hns : Ordered ns)
    (h : ∀ m, m ∈ ms ↔ m ∈ ns) : ms = ns := by
  have hnodup {l : List (Text × Json)} (hl : Ordered l) : l.Nodup := by
    refine List.Pairwise.imp (fun {a b} hlt he => ?_) hl
    subst he
    exact List.lt_irrefl _ hlt
  have hperm : ms.Perm ns := (List.perm_ext_iff_of_nodup (hnodup hms) (hnodup hns)).2 h
  refine hperm.eq_of_pairwise (fun a b _ _ hab hba => ?_) hms hns
  exact (List.lt_irrefl _ (List.lt_trans hab hba)).elim

theorem byKey_iff {a b : Text × Json} : byKey a b = true ↔ ¬ b.1 < a.1 := by
  simp only [byKey, Bool.not_eq_true', decide_eq_false_iff_not]

theorem ordered_mergeSort (ms : List (Text × Json)) : Ordered ((lastOfEach ms).mergeSort byKey) := by
  have hsorted : ((lastOfEach ms).mergeSort byKey).Pairwise fun a b => byKey a b = true := by
    refine List.pairwise_mergeSort (fun a b c hab hbc => ?_) (fun a b => ?_) (lastOfEach ms)
    · rw [byKey_iff, List.not_lt] at hab hbc ⊢
      exact List.le_trans hab hbc
    · rw [Bool.or_eq_true, byKey_iff, byKey_iff, List.not_lt, List.not_lt]
      exact List.le_total a.1 b.1
  have hne : ((lastOfEach ms).mergeSort byKey).Pairwise fun a b => a.1 ≠ b.1 :=
    ((List.mergeSort_perm (lastOfEach ms) byKey).pairwise_iff fun h => Ne.symm h).2 (lastOfEach_pairwise ms)
  refine (hsorted.and hne).imp fun {a b} hab => ?_
  exact (List.le_iff_lt_or_eq.1 (List.not_lt.1 (byKey_iff.1 hab.1))).resolve_right hab.2

/-- Put in one after another, members come to stand in the order of their keys, with the last one of each key. -/
theorem insertAll_nil (ms : List (Text × Json)) :
    insertAll [] ms = (lastOfEach ms).mergeSort byKey := by
  obtain ⟨hordered, hmem⟩ := insertAll_spec [] ms .nil
  refine hordered.eq_of_mem (ordered_mergeSort ms) fun m => ?_
  rw [hmem, List.mem_mergeSort]
  simp

end ServerSplit.Json
