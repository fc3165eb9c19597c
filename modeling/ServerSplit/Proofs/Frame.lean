import ServerSplit.Proofs.Artifacts
import ServerSplit.Proofs.Disk.Growth
import ServerSplit.Proofs.Failure
import ServerSplit.Proofs.Text.Utf8

/-! Which files a command line may touch. A run of the pass writes its module and, below the root of the build,
the files from which it has taken functions; a dry one writes nothing and says what the other would say. A
template goes where it was asked to go, and only where nothing was found. -/
namespace ServerSplit.Command

open Disk (Way Grows Rooted)

/-! ### Growth -/

theorem writeText_grows (path text : Text) (d : Disk) : Grows d (writeText path text d).1 := by
  unfold writeText
  split
  · rename_i h
    exact Disk.write_grows h
  · exact .refl d

/-- Writing the module makes directories at most before it writes the text. -/
theorem writeSdk_cases (path text : Text) (d : Disk) : ∃ made, Grows d made ∧ (∀ v, made.file? v = d.file? v) ∧
    ((writeSdk path text d).1 = made ∨ writeSdk path text d = writeText path text made) := by
  unfold writeSdk
  by_cases hparent : (Path.parent? path).getD [] = [] ∨ d.exists? ((Path.parent? path).getD []) = true
  · simp only [hparent, if_true]
    exact ⟨d, .refl d, fun _ => rfl, .inr rfl⟩
  · simp only [hparent, if_false]
    have hmade := Disk.makeAll_grows ((Path.parent? path).getD []) d
    refine ⟨_, hmade, Disk.file?_makeAll _ d, ?_⟩
    split
    · exact .inl rfl
    · exact .inr rfl

theorem writeSdk_grows (path text : Text) (d : Disk) : Grows d (writeSdk path text d).1 := by
  obtain ⟨made, hmade, -, hstops | hwrites⟩ := writeSdk_cases path text d
  · rw [hstops]
    exact hmade
  · rw [hwrites]
    exact hmade.trans (writeText_grows path text made)

/-- Files that are there are replaced. -/
theorem replaceAll_grows {root : Way} {as : List Artifact} {d : Disk}
    (h : ∀ a ∈ as, (d.file? (root ++ Path.names a.path)).isSome = true) : Grows d (replaceAll root as d) := by
  induction as generalizing d with
  | nil => exact .refl d
  | cons a as ih =>
    obtain ⟨old, hold⟩ := Disk.file?_isSome_iff.1 (h a (by simp))
    have htakes : Disk.Takes d (root ++ Path.names a.path) (.file (Text.bytes a.source)) := .replaced hold
    have hfirst := Disk.insert_grows htakes
    exact hfirst.trans (ih fun b hb => hfirst.files _ (h b (by simp [hb])))

theorem Plan.write_grows {args : TransformArgs} {d : Disk} {p : Plan} (hd : d.Rooted)
    (hmake : Plan.make args d = .ok p) : Grows d (p.write d).1 :=
  (replaceAll_grows fun _ ha => Plan.changed_file? hd.toWellFormed hmake ha).trans (writeSdk_grows _ _ _)

/-- Writing a template makes directories at most before it writes to a path that led nowhere. -/
theorem Template.write_cases (t : Template) (path : Text) (d : Disk) :
    ∃ made, Grows d made ∧ (∀ v, made.file? v = d.file? v) ∧ ((t.write path d).1 = made ∨
      d.exists? path = false ∧ made.write path (Text.bytes t.content.toList) = .ok (t.write path d).1) := by
  unfold Template.write
  split
  · exact ⟨d, .refl d, fun _ => rfl, .inl rfl⟩
  · rename_i hexists
    have hmade := Disk.makeAll_grows ((Path.parent? path).getD []) d
    refine ⟨_, hmade, Disk.file?_makeAll _ d, ?_⟩
    dsimp only
    split
    · rename_i hall
      exact .inl (by rw [hall])
    · rename_i hall
      rw [hall]
      split
      · exact .inl rfl
      · rename_i hwrite
        exact .inr ⟨by simpa using hexists, hwrite⟩

theorem Template.write_grows (t : Template) (path : Text) (d : Disk) : Grows d (t.write path d).1 := by
  obtain ⟨made, hmade, -, hstops | ⟨-, hwrites⟩⟩ := t.write_cases path d
  · rw [hstops]
    exact hmade
  · exact hmade.trans (Disk.write_grows hwrites)

/-- A text that is written is what its path leads to then. -/
theorem writeText_file? (path text : Text) (d : Disk) (v : Way) :
    (writeText path text d).1.file? v = d.file? v ∨
      (writeText path text d).1.find path = .ok (v, .file (Text.bytes text)) := by
  unfold writeText
  split
  · rename_i h
    obtain ⟨w, hfind, hfile⟩ := Disk.write_file? h
    rw [hfile]
    by_cases hv : v = w
    · subst hv
      exact .inr hfind
    · exact .inl (if_neg hv)
  · exact .inl rfl

/-- Writing the module changes no file but the one that its path leads to then. -/
theorem writeSdk_file? (path text : Text) (d : Disk) (v : Way) :
    (writeSdk path text d).1.file? v = d.file? v ∨
      (writeSdk path text d).1.find path = .ok (v, .file (Text.bytes text)) := by
  obtain ⟨made, -, hfiles, hstops | hwrites⟩ := writeSdk_cases path text d
  · rw [hstops]
    exact .inl (hfiles v)
  · rw [hwrites, ← hfiles v]
    exact writeText_file? path text made v

/-- What a run of the pass may do to a file. -/
theorem Plan.write_file? {args : TransformArgs} {d : Disk} {p : Plan} (hd : d.WellFormed)
    (hmake : Plan.make args d = .ok p) {v : Way} (hv : (p.write d).1.file? v ≠ d.file? v) :
    (p.write d).1.find p.sdkPath = .ok (v, .file (Text.bytes p.output.sdk.source)) ∨
      ∃ new, (p.write d).1.file? v = some new ∧ p.Rewrites d v new := by
  rcases writeSdk_file? p.sdkPath p.output.sdk.source (replaceAll p.root p.changed d) v with hsame | hfind
  · rcases replaceAll_file? p.root p.changed d v with hrest | ⟨a, ha, rfl, hnew⟩
    · exact (hv (hsame.trans hrest)).elim
    · exact .inr ⟨_, hsame.trans hnew, Plan.rewrites_of_changed hd hmake ha⟩
  · exact .inl hfind

/-- A template goes where its path leads then, if the path led nowhere before. -/
theorem Template.write_file? (t : Template) (path : Text) (d : Disk) (v : Way) :
    (t.write path d).1.file? v = d.file? v ∨
      d.exists? path = false ∧
        (t.write path d).1.find path = .ok (v, .file (Text.bytes t.content.toList)) := by
  obtain ⟨made, -, hfiles, hstops | ⟨hexists, hwrites⟩⟩ := t.write_cases path d
  · rw [hstops]
    exact .inl (hfiles v)
  · obtain ⟨w, hfind, hfile⟩ := Disk.write_file? hwrites
    by_cases hv : v = w
    · subst hv
      exact .inr ⟨hexists, hfind⟩
    · exact .inl ((hfile v).trans ((if_neg hv).trans (hfiles v)))

end ServerSplit.Command
