import ServerSplit.Proofs.Disk.Alike
import ServerSplit.Proofs.Disk.Growth
import ServerSplit.Proofs.Plan

/-! What a run of the pass does not look at. Files that the pass does not accept are carried along and left as
they are; so on two disks that differ in such files alone a run says and does the same, as long as it can read
the excluded ones on both or on neither. -/
namespace ServerSplit

/-! ### Files of a pass -/

namespace Pass

/-- What a pass gives, less the files that it has not looked at. -/
def Output.seen (c : Config) (out : Output) : Output :=
  { out with artifacts := out.artifacts.filter (c.accepts ·.path) }

theorem processAll_filter (p : Pass) (as : List Artifact) :
    processAll p (as.filter (p.config.accepts ·.path)) =
      (processAll p as).map fun r => (r.1, r.2.1.filter (p.config.accepts ·.path), r.2.2) := by
  induction as generalizing p with
  | nil => rfl
  | cons a as ih =>
    rw [processAll_cons]
    by_cases haccepts : p.config.accepts a.path = true
    · rw [List.filter_cons_of_pos (p := fun b : Artifact => p.config.accepts b.path) haccepts, processAll_cons, if_pos haccepts, if_pos haccepts]
      cases hprocess : settled (p.process a) with
      | error e => rfl
      | ok r =>
        obtain ⟨q, changed⟩ := r
        have hconfig := (process_ok haccepts (settled_eq_ok hprocess)).1.config
        have hrest := ih q
        rw [hconfig] at hrest
        rw [ok_bind, ok_bind, hrest]
        cases processAll q as with
        | error e => rfl
        | ok s => cases changed <;> simp [Except.map, listed, haccepts]
    · rw [List.filter_cons_of_neg (p := fun b : Artifact => p.config.accepts b.path) haccepts, if_neg haccepts, ih]
      cases processAll p as with
      | error e => rfl
      | ok s => simp [Except.map, haccepts]

/-- Files that a pass does not look at change nothing for the others. -/
theorem runPass_filter (c : Config) (as : List Artifact) :
    runPass c (as.filter (c.accepts ·.path)) = (runPass c as).map (Output.seen c) := by
  unfold runPass run
  rw [processAll_filter { config := c } as]
  cases processAll { config := c } as <;> rfl

end Pass

namespace Command

open Disk (Way Alike Within ways)

/-! ### Files of a build -/

/-- Where the files that are looked at are the same, and the other ones that end as artifacts do are texts, the build
can be read again, and the files that are looked at come out the same. -/
theorem exists_readArtifacts_filter {d₁ d₂ : Disk} (hd₁ : d₁.WellFormed) (hd₂ : d₂.WellFormed) {c : Config} {w : Way}
    {as : List Artifact} (has : readArtifacts w c.assetSuffix d₁ = .ok as)
    (hfiles : ∀ r, c.accepts (artifactPath r) = true → d₁.file? (w ++ r) = d₂.file? (w ++ r))
    (htexts : ∀ r bytes, d₂.file? (w ++ r) = some bytes → Text.endsWith c.assetSuffix (artifactPath r) = true →
      c.excludes (artifactPath r) = true → (Text.ofBytes? bytes).isSome = true) :
    ∃ bs, readArtifacts w c.assetSuffix d₂ = .ok bs ∧
      bs.filter (c.accepts ·.path) = as.filter (c.accepts ·.path) := by
  obtain ⟨bs, hbs⟩ : ∃ bs, readArtifacts w c.assetSuffix d₂ = .ok bs := by
    refine exists_readArtifacts_iff.2 ?_
    rintro ⟨r, bytes⟩ hf hsuffix
    have hfile := (Disk.mem_filesBelow_iff hd₂).1 hf
    cases hexcluded : c.excludes (artifactPath r) with
    | true => exact htexts r bytes hfile hsuffix hexcluded
    | false =>
      have haccepts : c.accepts (artifactPath r) = true := by simp [Config.accepts, hsuffix, hexcluded]
      have hmem := (Disk.mem_filesBelow_iff hd₁).2 ((hfiles r haccepts).trans hfile)
      exact exists_readArtifacts_iff.1 ⟨as, has⟩ _ hmem hsuffix
  refine ⟨bs, hbs, List.map_injective_iff.2 (Option.some_injective _) ?_⟩
  rw [← filter_readArtifacts has, ← filter_readArtifacts hbs]
  exact congrArg _ (Disk.filesBelow_filter_eq hd₁ hd₂ (p := fun r => c.accepts (artifactPath r)) hfiles).symm

/-! ### Plans -/

/-- A plan, less the files that its pass has not looked at. -/
def Plan.seen (p : Plan) : Plan := { p with output := p.output.seen p.config }

/-- The path of the configuration that is named, or of one that is found. -/
def configPath? (named : Option Text) (d : Disk) : Option Text := named <|> usualConfigs.find? d.exists?

/-- A file of the build that the pass looks at. -/
def Looked (args : TransformArgs) (c : Config) (d : Disk) (v : Way) : Prop :=
  ∃ w t r, findRoot args.path d = .ok (w, t) ∧ v = w ++ r ∧ c.accepts (artifactPath r) = true

/-- Two disks that have the same configuration, the same root of the build, the same files below it that the pass
looks at, and the same nodes along the path of the module. -/
structure SameSeen (args : TransformArgs) (d₁ d₂ : Disk) : Prop where
  here : d₁.here = d₂.here
  configPath : configPath? args.config d₁ = configPath? args.config d₂
  config : ∀ path, configPath? args.config d₁ = some path → d₁.readText path = d₂.readText path
  root : findRoot args.path d₁ = findRoot args.path d₂
  files : ∀ c, findConfig args.config d₁ = .ok c → ∀ v, Looked args c d₁ v → d₁.file? v = d₂.file? v
  module : ∀ c, findConfig args.config d₁ = .ok c →
    ∀ w ∈ ways d₁.here (args.sdkOut.getD c.sdkPath), d₁.lookup w = d₂.lookup w

/-- The files of the build that are excluded, but end as artifacts do, are texts. -/
def ExcludedTexts (args : TransformArgs) (d : Disk) : Prop :=
  ∀ c w t, findConfig args.config d = .ok c → findRoot args.path d = .ok (w, t) →
    ∀ r bytes, d.file? (w ++ r) = some bytes → Text.endsWith c.assetSuffix (artifactPath r) = true →
      c.excludes (artifactPath r) = true → (Text.ofBytes? bytes).isSome = true

variable {args : TransformArgs} {d₁ d₂ : Disk}

theorem SameSeen.sameConfig (h : SameSeen args d₁ d₂) :
    findConfig args.config d₁ = findConfig args.config d₂ := by
  have hpath := h.configPath
  have htext := h.config
  unfold configPath? at hpath htext
  unfold findConfig
  rw [← hpath]
  cases hfound : args.config <|> usualConfigs.find? d₁.exists? with
  | none => rfl
  | some path =>
    dsimp only
    unfold readConfig
    rw [htext path hfound]

theorem SameSeen.symm (h : SameSeen args d₁ d₂) : SameSeen args d₂ d₁ where
  here := h.here.symm
  configPath := h.configPath.symm
  config path hpath := (h.config path (h.configPath.trans hpath)).symm
  root := h.root.symm
  files c hc v hv := by
    refine (h.files c (h.sameConfig.trans hc) v ?_).symm
    unfold Looked at hv ⊢
    rwa [h.root]
  module c hc w hw := (h.module c (h.sameConfig.trans hc) w (h.here ▸ hw)).symm

/-- What can be planned on one disk can be planned on the other, with the same files that are looked at. -/
theorem SameSeen.make (h : SameSeen args d₁ d₂) (hd₁ : d₁.WellFormed) (hd₂ : d₂.WellFormed)
    (htexts : ExcludedTexts args d₁ → ExcludedTexts args d₂) {p : Plan} (hmake : Plan.make args d₁ = .ok p) :
    ∃ q, Plan.make args d₂ = .ok q ∧ q.seen = p.seen := by
  obtain ⟨hformat, hconfig, hroot, hsdk, as, has, hrun⟩ := Plan.make_eq_ok_iff.1 hmake
  have hconfig₂ := h.sameConfig.symm.trans hconfig
  have hroot₂ := h.root.symm.trans hroot
  have htexts₂ : ExcludedTexts args d₂ := by
    refine htexts fun c w t hc hw r bytes hfile hsuffix _ => ?_
    cases hconfig.symm.trans hc
    cases hroot.symm.trans hw
    exact exists_readArtifacts_iff.1 ⟨as, has⟩ _ ((Disk.mem_filesBelow_iff hd₁).2 hfile) hsuffix
  obtain ⟨bs, hbs, hsame⟩ := exists_readArtifacts_filter hd₁ hd₂ has
    (fun r hr => h.files _ hconfig _ ⟨_, _, r, hroot, rfl, hr⟩) (htexts₂ _ _ _ hconfig₂ hroot₂)
  have hout : (runPass p.config bs).map (Pass.Output.seen p.config) = .ok (p.output.seen p.config) := by
    rw [← Pass.runPass_filter, hsame, Pass.runPass_filter, hrun]
    rfl
  obtain ⟨out, hrun₂, hseen⟩ := exists_of_map hout
  refine ⟨{ p with output := out }, Plan.make_eq_ok_iff.2 ⟨hformat, hconfig₂, hroot₂, hsdk, bs, hbs, hrun₂⟩, ?_⟩
  unfold Plan.seen
  simp only [hseen]

/-! ### Writing -/

variable {here path : Text} {seen kept : Way → Prop}

theorem SameSeen.alike (h : SameSeen args d₁ d₂) {c : Config} (hc : findConfig args.config d₁ = .ok c) :
    Alike d₁.here (· ∈ ways d₁.here (args.sdkOut.getD c.sdkPath)) (Looked args c d₁) d₁ d₂ :=
  ⟨rfl, h.here.symm, h.module c hc, h.files c hc⟩

end Command

end ServerSplit
