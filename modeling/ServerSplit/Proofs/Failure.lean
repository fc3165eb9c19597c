import ServerSplit.Proofs.Plan

/-! What a command that fails leaves behind. Up to the writing nothing has been touched; where the writing of
the module fails, the files that the pass has changed are written already. No file is made in either case. -/
namespace ServerSplit.Command

open Disk (Way)

theorem replaceAll_file? (root : Way) (as : List Artifact) (d : Disk) (v : Way) :
    (replaceAll root as d).file? v = d.file? v ∨
      ∃ a ∈ as, v = root ++ Path.names a.path ∧ (replaceAll root as d).file? v = some (Text.bytes a.source) := by
  induction as generalizing d with
  | nil => exact .inl rfl
  | cons a as ih =>
    have hw : root ++ Path.names a.path ≠ [] := by simp [Disk.names_ne_nil]
    have hfirst := Disk.file?_insert d hw (Text.bytes a.source) v
    rcases ih (d.insert (root ++ Path.names a.path) (.file (Text.bytes a.source))) with h | ⟨b, hb, hv, h⟩
    · rw [hfirst] at h
      split at h
      · rename_i hv
        exact .inr ⟨a, by simp, hv, h⟩
      · exact .inl h
    · exact .inr ⟨b, by simp [hb], hv, h⟩

/-! ### Commands -/

end ServerSplit.Command
