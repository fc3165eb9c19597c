import Mathlib.Data.List.Sort
import ServerSplit.Command.Transform
import ServerSplit.Proofs.Disk

/-! The files of a build as a pass is given them: what stands below the root, in the order of the ways, each as
the text that its bytes are. -/
namespace ServerSplit

/-! ### The files below a directory -/

namespace Disk

theorem below_append (w r : Way) : below w (w ++ r) = some r := by
  induction w with
  | nil => rfl
  | cons n w ih => simp [below, ih]

theorem mem_nodes_of_file? {d : Disk} {v : Way} {bytes : List UInt8} (h : d.file? v = some bytes) :
    (v, .file bytes) ∈ d.nodes := by
  have hlookup : d.lookup v = some (.file bytes) := by
    unfold file? at h
    split at h
    · rename_i hlookup
      rw [hlookup, Option.some.inj h]
    · cases h
  unfold lookup at hlookup
  split at hlookup
  · cases hlookup
  · obtain ⟨before, after, he, -⟩ := List.lookup_eq_some_iff.1 hlookup
    simp [he]

theorem mem_filesBelow_iff {d : Disk} (hd : d.WellFormed) {w r : Way} {bytes : List UInt8} :
    (r, bytes) ∈ d.filesBelow w ↔ d.file? (w ++ r) = some bytes := by
  constructor
  · intro h
    exact file?_of_lookup (hd.lookup_of_mem (mem_nodes_of_mem_filesBelow h))
  · intro h
    refine List.mem_mergeSort.2 (List.mem_filterMap.2 ⟨_, mem_nodes_of_file? h, ?_⟩)
    simp [below_append]

/-- A file stands below a directory once. -/
theorem filesBelow_nodup {d : Disk} (hd : d.WellFormed) (w : Way) : ((d.filesBelow w).map Prod.fst).Nodup := by
  have hnodes : (d.nodes.map Prod.fst).Nodup := hd.distinct
  have hperm : ((d.filesBelow w).map Prod.fst).Perm _ := (List.mergeSort_perm _ _).map Prod.fst
  rw [hperm.nodup_iff, List.Nodup, List.pairwise_map]
  rw [List.Nodup, List.pairwise_map] at hnodes
  refine List.Pairwise.filterMap _ ?_ hnodes
  rintro ⟨v, n⟩ ⟨v', n'⟩ hne ⟨r, bytes⟩ hr ⟨r', bytes'⟩ hr' he
  simp only at hr hr' he
  split at hr
  · rename_i hbelow
    split at hr'
    · rename_i hbelow'
      cases hr
      cases hr'
      subst he
      exact hne ((eq_append_of_below hbelow).trans (eq_append_of_below hbelow').symm)
    · cases hr'
  · cases hr

theorem filesBelow_pairwise (d : Disk) (w : Way) : (d.filesBelow w).Pairwise fun a b => ¬ b.1 < a.1 := by
  unfold filesBelow
  refine (List.pairwise_mergeSort ?_ ?_ _).imp fun h => by simpa using h
  · intro a b c hab hbc
    simp only [Bool.not_eq_true', decide_eq_false_iff_not, List.not_lt] at hab hbc ⊢
    exact List.le_trans hab hbc
  · intro a b
    simp only [Bool.or_eq_true, Bool.not_eq_true', decide_eq_false_iff_not, List.not_lt]
    exact List.le_total _ _

/-- Of two disks, the files below a directory that they have in common stand in the same order. -/
theorem filesBelow_filter_eq {d₁ d₂ : Disk} (hd₁ : d₁.WellFormed) (hd₂ : d₂.WellFormed) {w : Way} {p : Way → Bool}
    (h : ∀ r, p r = true → d₁.file? (w ++ r) = d₂.file? (w ++ r)) :
    (d₁.filesBelow w).filter (p ·.1) = (d₂.filesBelow w).filter (p ·.1) := by
  have hnodup (d : Disk) (hd : d.WellFormed) : ((d.filesBelow w).filter (p ·.1)).Nodup :=
    (List.Nodup.of_map _ (filesBelow_nodup hd w)).filter _
  have hmem (f : Way × List UInt8) :
      f ∈ (d₁.filesBelow w).filter (p ·.1) ↔ f ∈ (d₂.filesBelow w).filter (p ·.1) := by
    obtain ⟨r, bytes⟩ := f
    rw [List.mem_filter, List.mem_filter, mem_filesBelow_iff hd₁, mem_filesBelow_iff hd₂]
    exact and_congr_left fun hp => by rw [h r hp]
  have hperm := (List.perm_ext_iff_of_nodup (hnodup d₁ hd₁) (hnodup d₂ hd₂)).2 hmem
  refine hperm.eq_of_pairwise ?_ ((filesBelow_pairwise d₁ w).filter _) ((filesBelow_pairwise d₂ w).filter _)
  rintro ⟨r, bytes⟩ ⟨r', bytes'⟩ hf hf' hle hge
  have he : r = r' := List.le_antisymm (List.not_lt.1 hle) (List.not_lt.1 hge)
  subst he
  have hfile := (mem_filesBelow_iff hd₁).1 (List.mem_of_mem_filter hf)
  have hfile' := (mem_filesBelow_iff hd₂).1 (List.mem_of_mem_filter hf')
  have hp : p r = true := (List.mem_filter.1 hf).2
  rw [h r hp, hfile'] at hfile
  rw [Option.some.inj hfile]

end Disk

/-! ### The files of a build -/

namespace Command

open Disk (Way)

/-- A file below the root as an artifact, if it is a text. -/
def artifact? (f : Way × List UInt8) : Option Artifact := (Text.ofBytes? f.2).map (⟨artifactPath f.1, ·⟩)

/-- The names of the path of a file are those of its way. -/
theorem names_artifactPath {d : Disk} (hd : d.WellFormed) {root : Way} (hroot : d.lookup root = some .directory)
    {f : Way × List UInt8} (hf : f ∈ d.filesBelow root) : Path.names (artifactPath f.1) = f.1 := by
  have hmem := Disk.mem_nodes_of_mem_filesBelow hf
  refine Disk.names_joinWith ?_ fun n hn => (hd.named _ (List.mem_map_of_mem hmem)).2 n (by simp [hn])
  intro hnil
  have hlookup := hd.lookup_of_mem hmem
  rw [hnil, List.append_nil, hroot] at hlookup
  cases hlookup

theorem artifact?_path {f : Way × List UInt8} {a : Artifact} (h : artifact? f = some a) :
    a.path = artifactPath f.1 := by
  obtain ⟨source, -, rfl⟩ := Option.map_eq_some_iff.1 h
  rfl

theorem artifact?_isSome (f : Way × List UInt8) : (artifact? f).isSome = (Text.ofBytes? f.2).isSome :=
  Option.isSome_map

/-- The files of a build are read where all of them are texts. -/
theorem readArtifacts_eq_ok_iff {root : Way} {suffix : Text} {d : Disk} {as : List Artifact} :
    readArtifacts root suffix d = .ok as ↔
      ((d.filesBelow root).filter fun f => Text.endsWith suffix (artifactPath f.1)).map artifact? =
        as.map some := by
  unfold readArtifacts
  refine mapM_eq_ok_iff fun f a => ?_
  obtain ⟨w, bytes⟩ := f
  unfold artifact?
  dsimp only
  cases Text.ofBytes? bytes <;> simp

theorem exists_readArtifacts_iff {root : Way} {suffix : Text} {d : Disk} :
    (∃ as, readArtifacts root suffix d = .ok as) ↔
      ∀ f ∈ d.filesBelow root, Text.endsWith suffix (artifactPath f.1) = true → (Text.ofBytes? f.2).isSome := by
  simp only [readArtifacts_eq_ok_iff, exists_map_some_iff, List.forall_mem_map, List.mem_filter, artifact?_isSome,
    and_imp]

/-- The files that a pass looks at are those of its files that it accepts. -/
theorem filter_readArtifacts {root : Way} {c : Config} {d : Disk} {as : List Artifact}
    (h : readArtifacts root c.assetSuffix d = .ok as) :
    ((d.filesBelow root).filter fun f => c.accepts (artifactPath f.1)).map artifact? =
      (as.filter (c.accepts ·.path)).map some := by
  have hfiles := filter_of_map_eq (p := fun f => c.accepts (artifactPath f.1)) (q := (c.accepts ·.path))
    (fun f a hfa => by rw [artifact?_path hfa]) (readArtifacts_eq_ok_iff.1 h)
  rw [List.filter_filter] at hfiles
  rw [← hfiles]
  congr 2
  funext f
  unfold Config.accepts
  cases Text.endsWith c.assetSuffix (artifactPath f.1) <;> simp

end Command

end ServerSplit
