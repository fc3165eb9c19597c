import Mathlib.Data.List.Induction
import ServerSplit.Proofs.Disk.Walk

/-! A disk only grows. What is made or written stands in a directory, directories stay, and a file stays a
file, with other bytes at most. -/
namespace ServerSplit.Disk

/-- A well-formed disk on which every node stands in a directory. -/
structure Rooted (d : Disk) : Prop extends WellFormed d where
  parent : ∀ w n, d.lookup (w ++ [n]) ≠ none → d.lookup w = some .directory

/-- `d'` is `d` at a later time. -/
structure Grows (d d' : Disk) : Prop where
  here : d'.here = d.here
  directories : ∀ w, d.lookup w = some .directory → d'.lookup w = some .directory
  files : ∀ w, (d.file? w).isSome = true → (d'.file? w).isSome = true
  rooted : d.Rooted → d'.Rooted

theorem Grows.refl (d : Disk) : Grows d d := ⟨rfl, fun _ h => h, fun _ h => h, id⟩

theorem Grows.trans {d₁ d₂ d₃ : Disk} (h : Grows d₁ d₂) (h' : Grows d₂ d₃) : Grows d₁ d₃ where
  here := h'.here.trans h.here
  directories w hw := h'.directories w (h.directories w hw)
  files w hw := h'.files w (h.files w hw)
  rooted hd := h'.rooted (h.rooted hd)

theorem file?_isSome_iff {d : Disk} {w : Way} :
    (d.file? w).isSome = true ↔ ∃ bytes, d.lookup w = some (.file bytes) := by
  unfold file?
  split
  · rename_i bytes h
    simp [h]
  · rename_i h
    simp only [Option.isSome_none, Bool.false_eq_true, false_iff]
    rintro ⟨bytes, hbytes⟩
    exact h bytes hbytes

theorem lookup_of_ne_nil {d : Disk} {w : Way} (h : w ≠ []) : d.lookup w = d.nodes.lookup w := if_neg h

/-- Directories stand all along the way to a node. -/
theorem Rooted.directories {d : Disk} (hd : d.Rooted) {u v : Way} (hv : d.lookup v ≠ none) (h : u <+: v)
    (hne : u ≠ v) : d.lookup u = some .directory := by
  induction v using List.reverseRecOn with
  | nil => exact (hne (List.prefix_nil.1 h)).elim
  | append_singleton v n ih =>
    have hdir := hd.parent v n hv
    by_cases he : u = v
    · exact he ▸ hdir
    · exact ih (by simp [hdir]) ((List.prefix_concat_iff.1 h).resolve_left hne) he

/-! ### One node -/

/-- Where a node may be put: in the place of a file, or into a directory. -/
inductive Takes (d : Disk) : Way → Node → Prop
  | replaced {w : Way} {old new : List UInt8} (h : d.lookup w = some (.file old)) : Takes d w (.file new)
  | added {u : Way} {n : Text} {node : Node} (hname : '/' ∉ n) (hdir : d.lookup u = some .directory)
      (h : d.lookup (u ++ [n]) = none) : Takes d (u ++ [n]) node

theorem Takes.ne_nil {d : Disk} {w : Way} {node : Node} (h : Takes d w node) : w ≠ [] := by
  cases h with
  | replaced h =>
    rintro rfl
    cases h
  | added => simp

theorem Takes.not_directory {d : Disk} {w : Way} {node : Node} (h : Takes d w node) :
    d.lookup w ≠ some .directory := by
  cases h with
  | replaced h => simp [h]
  | added _ _ h => simp [h]

/-- Nothing stands below what is no directory. -/
theorem Takes.is_file {d : Disk} {w : Way} {node : Node} {old : List UInt8} (h : Takes d w node)
    (hw : d.lookup w = some (.file old)) : ∃ new, node = .file new := by
  cases h with
  | replaced => exact ⟨_, rfl⟩
  | added _ _ h =>
    rw [h] at hw
    cases hw

private theorem map_fst_replace (nodes : List (Way × Node)) (w : Way) (n : Node) :
    (nodes.map fun p => if p.1 = w then (w, n) else p).map Prod.fst = nodes.map Prod.fst := by
  rw [List.map_map]
  refine List.map_congr_left fun p _ => ?_
  by_cases h : p.1 = w <;> simp [h]

private theorem mem_of_lookup_isSome {nodes : List (Way × Node)} {w : Way} (h : (nodes.lookup w).isSome = true) :
    w ∈ nodes.map Prod.fst := by
  by_contra hw
  rw [List.lookup_eq_none_iff.2 fun p hp => ?_] at h
  · cases h
  · exact bne_iff_ne.2 fun he => hw (List.mem_map.2 ⟨p, hp, he.symm⟩)

theorem WellFormed.names {d : Disk} (hd : d.WellFormed) {w : Way} (h : d.lookup w ≠ none) : ∀ n ∈ w, '/' ∉ n := by
  by_cases hw : w = []
  · simp [hw]
  · rw [lookup_of_ne_nil hw, ← Option.isSome_iff_ne_none] at h
    exact (hd.named w (mem_of_lookup_isSome h)).2

private theorem map_fst_insert {d : Disk} {w : Way} {node : Node} (h : Takes d w node) :
    ((d.insert w node).nodes.map Prod.fst = d.nodes.map Prod.fst) ∨
      (d.lookup w = none ∧ (d.insert w node).nodes.map Prod.fst = d.nodes.map Prod.fst ++ [w]) := by
  unfold insert
  dsimp only
  split
  · exact .inl (map_fst_replace _ _ _)
  · rename_i hnone
    refine .inr ⟨?_, by simp⟩
    rw [lookup_of_ne_nil h.ne_nil]
    exact Option.not_isSome_iff_eq_none.1 hnone

theorem insert_wellFormed {d : Disk} (hd : d.WellFormed) {w : Way} {node : Node} (h : Takes d w node) :
    (d.insert w node).WellFormed := by
  rcases map_fst_insert h with hkeys | ⟨hnone, hkeys⟩
  · exact ⟨hkeys ▸ hd.distinct, hkeys ▸ hd.named⟩
  · have hnotMem : w ∉ d.nodes.map Prod.fst := by
      intro hmem
      obtain ⟨⟨_, m⟩, hp, rfl⟩ := List.mem_map.1 hmem
      rw [hd.lookup_of_mem hp] at hnone
      cases hnone
    constructor
    · rw [hkeys]
      exact List.nodup_append.2 ⟨hd.distinct, by simp, fun a ha b hb he =>
        hnotMem (by rwa [← List.mem_singleton.1 hb, ← he])⟩
    · rw [hkeys]
      refine List.forall_mem_append.2 ⟨hd.named, ?_⟩
      rintro v hv
      rw [List.mem_singleton.1 hv]
      refine ⟨h.ne_nil, ?_⟩
      cases h with
      | replaced h =>
        rw [h] at hnone
        cases hnone
      | added hname hdir =>
        exact List.forall_mem_append.2 ⟨hd.names (by simp [hdir]), by simpa using hname⟩

theorem insert_grows {d : Disk} {w : Way} {node : Node} (h : Takes d w node) : Grows d (d.insert w node) where
  here := rfl
  directories v hv := by
    rw [lookup_insert d h.ne_nil, if_neg]
    · exact hv
    · rintro rfl
      exact h.not_directory hv
  files v hv := by
    obtain ⟨bytes, hbytes⟩ := file?_isSome_iff.1 hv
    refine file?_isSome_iff.2 ?_
    rw [lookup_insert d h.ne_nil]
    by_cases hvw : v = w
    · subst hvw
      obtain ⟨new, rfl⟩ := h.is_file hbytes
      exact ⟨new, if_pos rfl⟩
    · exact ⟨bytes, by rw [if_neg hvw, hbytes]⟩
  rooted hd := by
    refine ⟨insert_wellFormed hd.toWellFormed h, fun v n hv => ?_⟩
    have hdir : d.lookup v = some .directory := by
      rw [lookup_insert d h.ne_nil] at hv
      by_cases hvw : v ++ [n] = w
      · cases h with
        | replaced h => exact hd.parent v n (by simp [hvw, h])
        | added _ hdir => exact (List.append_inj_left' hvw rfl) ▸ hdir
      · rw [if_neg hvw] at hv
        exact hd.parent v n hv
    rw [lookup_insert d h.ne_nil, if_neg]
    · exact hdir
    · rintro rfl
      exact h.not_directory hdir

/-! ### Paths -/

/-- The target of a path takes a directory where nothing is, and a file where no directory is. -/
theorem target_takes {d : Disk} {path : Text} {w : Way} {node : Node} (h : d.target path = .ok (some w))
    (hw : d.lookup w = none ∨ d.lookup w ≠ some .directory ∧ ∃ bytes, node = .file bytes) : Takes d w node := by
  obtain ⟨ms, n, blanks, u, hns, -, -, -, hdir, rfl⟩ := target_eq_some h
  have hname : '/' ∉ n := notMem_of_namesFrom hns (by simp)
  rcases hw with hnone | ⟨hnot, bytes, rfl⟩
  · exact .added hname hdir hnone
  · cases hnode : d.lookup (u ++ [n]) with
    | none => exact .added hname hdir hnode
    | some m =>
      cases m with
      | directory => exact (hnot hnode).elim
      | file old => exact .replaced hnode

theorem makeDirectory_grows {d d' : Disk} {path : Text} (h : d.makeDirectory path = .ok d') : Grows d d' := by
  obtain ⟨w, ht, hnone, rfl⟩ := makeDirectory_eq_ok h
  exact insert_grows (target_takes ht (.inl hnone))

theorem settle_grows (d : Disk) (path : Text) : Grows d (d.settle path).1 := by
  unfold settle
  split
  · rename_i h
    exact makeDirectory_grows h
  · exact .refl d

theorem makeDirectories_grows (n : Nat) (path : Text) (d : Disk) : Grows d (makeDirectories n path d).1 := by
  induction n generalizing path d with
  | zero => exact .refl d
  | succ n ih =>
    unfold makeDirectories
    split
    · exact .refl d
    · split
      · split
        · exact .refl d
        · rename_i parent _
          have hrest := ih parent d
          split
          · rename_i d' _ hmade
            rw [hmade] at hrest
            exact hrest.trans (settle_grows d' path)
          · exact hrest
      · exact settle_grows d path

theorem makeAll_grows (path : Text) (d : Disk) : Grows d (makeAll path d).1 := makeDirectories_grows _ path d

theorem write_eq_ok {d d' : Disk} {path : Text} {bytes : List UInt8} (h : d.write path bytes = .ok d') :
    ∃ w, d.target path = .ok (some w) ∧ path.getLast? ≠ some '/' ∧ d.lookup w ≠ some .directory ∧
      d' = d.insert w (.file bytes) := by
  unfold write at h
  obtain ⟨t, ht, h⟩ := exists_of_bind h
  cases t with
  | none => cases h
  | some w =>
    dsimp only at h
    split at h
    · cases h
    · rename_i hslash
      split at h
      · cases h
      · rename_i hdir
        cases h
        exact ⟨w, ht, hslash, hdir, rfl⟩

theorem write_grows {d d' : Disk} {path : Text} {bytes : List UInt8} (h : d.write path bytes = .ok d') :
    Grows d d' := by
  obtain ⟨w, ht, -, hdir, rfl⟩ := write_eq_ok h
  exact insert_grows (target_takes ht (.inr ⟨hdir, bytes, rfl⟩))

/-- What is written is what the path leads to then, and no other file changes. -/
theorem write_file? {d d' : Disk} {path : Text} {bytes : List UInt8} (h : d.write path bytes = .ok d') :
    ∃ w, d'.find path = .ok (w, .file bytes) ∧ ∀ v, d'.file? v = if v = w then some bytes else d.file? v := by
  obtain ⟨w, ht, hslash, hdir, rfl⟩ := write_eq_ok h
  have htakes : Takes d w (.file bytes) := target_takes ht (.inr ⟨hdir, bytes, rfl⟩)
  refine ⟨w, ?_, file?_insert d htakes.ne_nil bytes⟩
  exact find_of_target ht hslash rfl (insert_grows htakes).directories
    (by rw [lookup_insert d htakes.ne_nil, if_pos rfl])

end ServerSplit.Disk
