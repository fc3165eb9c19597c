import Mathlib.Data.List.Nodup
import ServerSplit.Disk.Basic
import ServerSplit.Proofs.Except
import ServerSplit.Proofs.Text.Split

/-! Which files operations on a disk change: making directories changes none, and putting a node in its place
changes no other one. -/
namespace ServerSplit.Disk

/-- A disk on which each way leads to one node and is made of names. -/
structure WellFormed (d : Disk) : Prop where
  distinct : (d.nodes.map Prod.fst).Nodup
  named : ∀ w ∈ d.nodes.map Prod.fst, w ≠ [] ∧ ∀ n ∈ w, '/' ∉ n

/-- What the file that a way leads to holds, if it leads to a file. -/
def file? (d : Disk) (w : Way) : Option (List UInt8) :=
  match d.lookup w with
  | some (.file bytes) => some bytes
  | _ => none

theorem file?_of_lookup {d : Disk} {w : Way} {bytes : List UInt8} (h : d.lookup w = some (.file bytes)) :
    d.file? w = some bytes := by
  unfold file?
  rw [h]

theorem lookup_of_find {d : Disk} {path : Text} {w : Way} {n : Node} (h : d.find path = .ok (w, n)) :
    d.lookup w = some n := by
  unfold find at h
  obtain ⟨ns, _, h⟩ := exists_of_bind h
  obtain ⟨v, _, h⟩ := exists_of_bind h
  cases hlookup : d.lookup v with
  | none => simp [hlookup] at h
  | some m =>
    simp only [hlookup] at h
    cases h
    exact hlookup

/-! ### Putting nodes in their places -/

private theorem lookup_map_replace (nodes : List (Way × Node)) (w v : Way) (n : Node) :
    (nodes.map fun p => if p.1 = w then (w, n) else p).lookup v =
      if v = w then (nodes.lookup v).map fun _ => n else nodes.lookup v := by
  induction nodes with
  | nil => simp
  | cons p nodes ih =>
    obtain ⟨u, m⟩ := p
    rw [List.map_cons]
    by_cases hu : u = w
    · subst hu
      by_cases hv : v = u
      · simp [hv]
      · simpa [List.lookup_cons, hv, beq_eq_false_iff_ne.2 hv] using ih
    · by_cases hv : v = u
      · subst hv
        simp [hu]
      · simp only [hu, if_false]
        rw [List.lookup_cons, List.lookup_cons, beq_eq_false_iff_ne.2 hv]
        exact ih

theorem lookup_insert (d : Disk) {w : Way} (hw : w ≠ []) (n : Node) (v : Way) :
    (d.insert w n).lookup v = if v = w then some n else d.lookup v := by
  unfold lookup insert
  by_cases hv : v = []
  · subst hv
    simp [hw.symm]
  · simp only [hv, if_false]
    split
    · rename_i hsome
      rw [lookup_map_replace]
      obtain ⟨m, hm⟩ := Option.isSome_iff_exists.1 hsome
      by_cases hvw : v = w <;> simp [hvw, hm]
    · rename_i hnone
      have hnone : d.nodes.lookup w = none := Option.not_isSome_iff_eq_none.1 hnone
      rw [List.lookup_append]
      by_cases hvw : v = w
      · simp [hvw, hnone]
      · simp [hvw, beq_eq_false_iff_ne.2 hvw, List.lookup_cons]

theorem file?_insert (d : Disk) {w : Way} (hw : w ≠ []) (bytes : List UInt8) (v : Way) :
    (d.insert w (.file bytes)).file? v = if v = w then some bytes else d.file? v := by
  unfold file?
  rw [lookup_insert d hw]
  by_cases hv : v = w <;> simp [hv]

theorem ne_nil_of_lookup_eq_none {d : Disk} {w : Way} (h : d.lookup w = none) : w ≠ [] := by
  rintro rfl
  simp [lookup] at h

/-- A directory where nothing was takes the place of no file. -/
theorem file?_insert_directory {d : Disk} {w : Way} (h : d.lookup w = none) (v : Way) :
    (d.insert w .directory).file? v = d.file? v := by
  unfold file?
  rw [lookup_insert d (ne_nil_of_lookup_eq_none h)]
  by_cases hv : v = w <;> simp [hv, h]

/-! ### Making directories -/

theorem makeDirectory_eq_ok {d d' : Disk} {path : Text} (h : d.makeDirectory path = .ok d') :
    ∃ w, d.target path = .ok (some w) ∧ d.lookup w = none ∧ d' = d.insert w .directory := by
  unfold makeDirectory at h
  obtain ⟨t, ht, h⟩ := exists_of_bind h
  cases t with
  | none => cases h
  | some w =>
    dsimp only at h
    split at h
    · cases h
    · rename_i hnone
      cases h
      exact ⟨w, ht, Option.not_isSome_iff_eq_none.1 hnone, rfl⟩

theorem file?_makeDirectory {d d' : Disk} {path : Text} (h : d.makeDirectory path = .ok d') (v : Way) :
    d'.file? v = d.file? v := by
  obtain ⟨w, -, hnone, rfl⟩ := makeDirectory_eq_ok h
  exact file?_insert_directory hnone v

theorem file?_settle (d : Disk) (path : Text) (v : Way) : (d.settle path).1.file? v = d.file? v := by
  unfold settle
  split
  · rename_i d' h
    exact file?_makeDirectory h v
  · rfl

theorem file?_makeDirectories (n : Nat) (path : Text) (d : Disk) (v : Way) :
    (makeDirectories n path d).1.file? v = d.file? v := by
  induction n generalizing path d with
  | zero => rfl
  | succ n ih =>
    unfold makeDirectories
    split
    · rfl
    · split
      · split
        · rfl
        · rename_i parent _
          have hrest := ih parent d
          split
          · rename_i d' _ hmade
            rw [hmade] at hrest
            rw [file?_settle, hrest]
          · exact hrest
      · exact file?_settle d path v

/-- Making directories changes no file, whether it ends well or not. -/
theorem file?_makeAll (path : Text) (d : Disk) (v : Way) : (makeAll path d).1.file? v = d.file? v :=
  file?_makeDirectories _ path d v

/-! ### Paths -/

theorem names_ne_nil (path : Text) : Path.names path ≠ [] := Text.splitOn_ne_nil '/' path

/-- The names of a path that is made of names are these. -/
theorem names_joinWith {w : Way} (hw : w ≠ []) (h : ∀ n ∈ w, '/' ∉ n) :
    Path.names (Text.joinWith ['/'] w) = w := by
  unfold Path.names
  induction w with
  | nil => exact (hw rfl).elim
  | cons n w ih =>
    have hn := h n (by simp)
    cases w with
    | nil => exact Text.splitOn_of_not_mem hn
    | cons m w =>
      have hrest := ih (by simp) fun k hk => h k (by simp [hk])
      have hjoin : Text.joinWith ['/'] (n :: m :: w) = n ++ '/' :: Text.joinWith ['/'] (m :: w) := by
        change n ++ ['/'] ++ Text.joinWith ['/'] (m :: w) = _
        simp
      rw [hjoin, Text.splitOn_append, Text.splitOn_of_not_mem hn, hrest]
      rfl

/-! ### Files below a directory -/

theorem eq_append_of_below {w v r : Way} (h : below w v = some r) : v = w ++ r := by
  induction w generalizing v with
  | nil => simpa [below] using h
  | cons n ns ih =>
    cases v with
    | nil => cases h
    | cons m ms =>
      unfold below at h
      split at h
      · rename_i he
        rw [he, ih h, List.cons_append]
      · cases h

theorem mem_nodes_of_mem_filesBelow {d : Disk} {w r : Way} {bytes : List UInt8}
    (h : (r, bytes) ∈ d.filesBelow w) : (w ++ r, .file bytes) ∈ d.nodes := by
  obtain ⟨⟨v, n⟩, hmem, hn⟩ := List.mem_filterMap.1 (List.mem_mergeSort.1 h)
  simp only at hn
  split at hn
  · rename_i r' bytes' hbelow
    cases hn
    rw [← eq_append_of_below hbelow]
    exact hmem
  · cases hn

private theorem lookup_of_mem_nodes {nodes : List (Way × Node)} {w : Way} {n : Node}
    (hnodup : (nodes.map Prod.fst).Nodup) (h : (w, n) ∈ nodes) : nodes.lookup w = some n := by
  induction nodes with
  | nil => cases h
  | cons p nodes ih =>
    obtain ⟨u, m⟩ := p
    obtain ⟨hu, hnodes⟩ := List.nodup_cons.1 hnodup
    rcases List.mem_cons.1 h with he | h
    · cases he
      simp
    · have hne : w ≠ u := fun he => hu (List.mem_map.2 ⟨_, h, he⟩)
      rw [List.lookup_cons, beq_eq_false_iff_ne.2 hne]
      exact ih hnodes h

theorem WellFormed.lookup_of_mem {d : Disk} (hd : d.WellFormed) {w : Way} {n : Node} (h : (w, n) ∈ d.nodes) :
    d.lookup w = some n := by
  rw [lookup, if_neg (hd.named w (List.mem_map_of_mem h)).1]
  exact lookup_of_mem_nodes hd.distinct h

end ServerSplit.Disk
