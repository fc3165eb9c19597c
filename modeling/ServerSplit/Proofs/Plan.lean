import ServerSplit.Command.Run
import ServerSplit.Proofs.Artifacts
import ServerSplit.Proofs.Run

/-! What a command has before it writes: the root, the configuration, and the pass over the files of the build.
The files that it is going to change are those from which the pass has taken functions. -/
namespace ServerSplit.Command

open Disk (Way)
open Directive (topmost)

theorem findRoot_lookup {path rootPath : Text} {d : Disk} {w : Way} (h : findRoot path d = .ok (w, rootPath)) :
    d.lookup w = some .directory := by
  unfold findRoot at h
  split at h
  · cases h
  · cases h
  · rename_i w' hfind
    cases h
    exact Disk.lookup_of_find hfind

/-- A plan is made where all that it needs can be read and the pass over the files ends well. -/
theorem Plan.make_eq_ok_iff {args : TransformArgs} {d : Disk} {p : Plan} : Plan.make args d = .ok p ↔
    isFormat args.format = true ∧ findConfig args.config d = .ok p.config ∧
      findRoot args.path d = .ok (p.root, p.rootPath) ∧ p.sdkPath = args.sdkOut.getD p.config.sdkPath ∧
      ∃ artifacts, readArtifacts p.root p.config.assetSuffix d = .ok artifacts ∧
        runPass p.config artifacts = .ok p.output := by
  unfold Plan.make
  constructor
  · intro h
    split at h
    · cases h
    · rename_i hformat
      obtain ⟨config, hconfig, h⟩ := exists_of_bind h
      obtain ⟨⟨root, rootPath⟩, hroot, h⟩ := exists_of_bind h
      obtain ⟨artifacts, hartifacts, h⟩ := exists_of_bind h
      cases hrun : runPass config artifacts with
      | error e => simp [hrun] at h
      | ok output =>
        simp only [hrun] at h
        cases h
        exact ⟨by simpa using hformat, hconfig, hroot, rfl, artifacts, hartifacts, hrun⟩
  · rintro ⟨hformat, hconfig, hroot, hsdk, artifacts, hartifacts, hrun⟩
    simp only [hformat, Bool.not_true, Bool.false_eq_true, if_false, hconfig, hroot, hartifacts, hrun, bind,
      Except.bind, ← hsdk]
    rfl

/-! ### The files that change -/

theorem exists_of_takes_ne_nil {c : Config} {a : Artifact} (h : Pass.takes c a ≠ []) :
    c.accepts a.path = true ∧ ∃ tree, Js.parse a.source = some tree ∧ topmost c.directive tree ≠ [] := by
  unfold Pass.takes at h
  split at h
  · rename_i haccepts
    refine ⟨haccepts, ?_⟩
    cases hparse : Js.parse a.source with
    | none => simp [hparse] at h
    | some tree =>
      refine ⟨tree, rfl, fun hnil => ?_⟩
      simp [hparse, hnil] at h
  · exact (h rfl).elim

/-- A file below the root of the build that a pass looks at and that holds a marked function, and what the pass
makes of it. -/
def Plan.Rewrites (p : Plan) (d : Disk) (v : Way) (new : List UInt8) : Prop :=
  ∃ r bytes source tree a,
    v = p.root ++ r ∧ d.file? v = some bytes ∧ Text.ofBytes? bytes = some source ∧
    Text.endsWith p.config.assetSuffix (artifactPath r) = true ∧ p.config.excludes (artifactPath r) = false ∧
    Js.parse source = some tree ∧ topmost p.config.directive tree ≠ [] ∧
    a ∈ p.output.artifacts ∧ a.path = artifactPath r ∧ new = Text.bytes a.source

/-- Two files of a build with one path are the same. -/
private theorem filesBelow_inj {d : Disk} (hd : d.WellFormed) {root : Way} (hroot : d.lookup root = some .directory)
    {f g : Way × List UInt8} (hf : f ∈ d.filesBelow root) (hg : g ∈ d.filesBelow root)
    (h : artifactPath f.1 = artifactPath g.1) : f = g := by
  have hway : f.1 = g.1 := by
    rw [← names_artifactPath hd hroot hf, h, names_artifactPath hd hroot hg]
  exact List.inj_on_of_nodup_map (Disk.filesBelow_nodup hd root) hf hg hway

/-- What a plan changes are the files from which its pass has taken functions. -/
theorem Plan.rewrites_of_changed {args : TransformArgs} {d : Disk} {p : Plan} {a : Artifact} (hd : d.WellFormed)
    (hmake : Plan.make args d = .ok p) (ha : a ∈ p.changed) :
    p.Rewrites d (p.root ++ Path.names a.path) (Text.bytes a.source) := by
  obtain ⟨-, -, hroot, -, artifacts, hartifacts, hrun⟩ := Plan.make_eq_ok_iff.1 hmake
  have hyields := Pass.runPass_yields hrun
  have hfiles := readArtifacts_eq_ok_iff.1 hartifacts
  have hdir := findRoot_lookup hroot
  obtain ⟨hout, hrewritten⟩ := List.mem_filter.1 ha
  obtain ⟨b, hb, rfl⟩ := List.mem_map.1 (hyields.artifacts ▸ hout)
  have hfile : ∀ b ∈ artifacts, ∃ f ∈ d.filesBelow p.root,
      Text.endsWith p.config.assetSuffix (artifactPath f.1) = true ∧ artifact? f = some b := by
    intro b hb
    obtain ⟨f, hf, hfb⟩ := List.mem_map.1 (hfiles ▸ List.mem_map_of_mem hb)
    exact ⟨f, List.mem_of_mem_filter hf, (List.mem_filter.1 hf).2, hfb⟩
  obtain ⟨⟨r, bytes⟩, hf, hsuffix, hfb⟩ := hfile b hb
  obtain ⟨source, hsource, rfl⟩ := Option.map_eq_some_iff.1 hfb
  -- the path is that of a file that changed, and no other file has it
  have htakes : Pass.takes p.config ⟨artifactPath r, source⟩ ≠ [] := by
    rw [List.contains_iff_mem, hyields.rewritten] at hrewritten
    obtain ⟨b', hb', hpath⟩ := List.mem_map.1 hrewritten
    obtain ⟨hb', htakes⟩ := List.mem_filter.1 hb'
    obtain ⟨g, hg, -, hgb⟩ := hfile b' hb'
    have hsame : g = (r, bytes) := by
      refine filesBelow_inj hd hdir hg hf ?_
      rw [← artifact?_path hgb, hpath]
      rfl
    rw [hsame, hfb] at hgb
    cases hgb
    simpa using htakes
  obtain ⟨haccepts, tree, hparse, hmarked⟩ := exists_of_takes_ne_nil htakes
  have hexcluded : p.config.excludes (artifactPath r) = false := by
    simpa [Config.accepts, hsuffix] using haccepts
  have hway : Path.names (Pass.rewrite p.config ⟨artifactPath r, source⟩).path = r :=
    names_artifactPath hd hdir hf
  rw [hway]
  exact ⟨r, bytes, source, tree, _, rfl, (Disk.mem_filesBelow_iff hd).1 hf, hsource, hsuffix, hexcluded,
    hparse, hmarked, hout, rfl, rfl⟩

/-- The files that a plan changes are there. -/
theorem Plan.changed_file? {args : TransformArgs} {d : Disk} {p : Plan} {a : Artifact} (hd : d.WellFormed)
    (hmake : Plan.make args d = .ok p) (ha : a ∈ p.changed) :
    (d.file? (p.root ++ Path.names a.path)).isSome = true := by
  obtain ⟨r, bytes, source, tree, b, -, hfile, -⟩ := Plan.rewrites_of_changed hd hmake ha
  rw [hfile]
  rfl

end ServerSplit.Command
