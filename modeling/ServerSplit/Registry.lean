import ServerSplit.Text.Basic

/-! The functions that a pass has taken out, by their identifiers. The first function with an identifier
keeps it. -/
namespace ServerSplit

/-- A function taken out of a file. -/
structure Record where
  id : Text
  name : Text
  sourceText : Text
  artifact : Text
  line : Nat
  deriving Repr, DecidableEq

/-- Records in the order of their identifiers, at most one for each. -/
structure Registry where
  records : List Record
  ordered : records.Pairwise fun a b => a.id < b.id

namespace Registry

def empty : Registry := ⟨[], List.Pairwise.nil⟩

def get? (r : Registry) (id : Text) : Option Record := r.records.find? (·.id = id)

def contains (r : Registry) (id : Text) : Bool := (r.get? id).isSome

def size (r : Registry) : Nat := r.records.length

def ids (r : Registry) : List Text := r.records.map (·.id)

/-- Puts a record in its place, unless one with its identifier is there. -/
def insertRecord (x : Record) : List Record → List Record
  | [] => [x]
  | y :: ys => if x.id < y.id then x :: y :: ys else if x.id = y.id then y :: ys else y :: insertRecord x ys

theorem mem_insertRecord {x z : Record} {ys : List Record} (h : z ∈ insertRecord x ys) :
    z = x ∨ z ∈ ys := by
  induction ys with
  | nil => simpa [insertRecord] using h
  | cons y ys ih =>
    simp only [insertRecord] at h
    split at h
    · simpa using h
    · split at h
      · exact .inr h
      · rcases List.mem_cons.1 h with h | h
        · simp [h]
        · rcases ih h with h | h <;> simp [h]

theorem insertRecord_ordered {x : Record} {ys : List Record}
    (h : ys.Pairwise fun a b => a.id < b.id) :
    (insertRecord x ys).Pairwise fun a b => a.id < b.id := by
  induction ys with
  | nil => simp [insertRecord]
  | cons y ys ih =>
    obtain ⟨hy, hys⟩ := List.pairwise_cons.1 h
    simp only [insertRecord]
    split
    · rename_i hxy
      refine List.pairwise_cons.2 ⟨fun z hz => ?_, h⟩
      rcases List.mem_cons.1 hz with rfl | hz
      · exact hxy
      · exact List.lt_trans hxy (hy z hz)
    · split
      · exact h
      · rename_i hxy hne
        refine List.pairwise_cons.2 ⟨fun z hz => ?_, ih hys⟩
        rcases mem_insertRecord hz with rfl | hz
        · exact (List.le_iff_lt_or_eq.1 (List.not_lt.1 hxy)).resolve_right fun he => hne he.symm
        · exact hy z hz

/-- The registry with one more record, or the record that holds its identifier already. -/
def register (r : Registry) (x : Record) : Registry × Option Record :=
  match r.get? x.id with
  | some kept => (r, some kept)
  | none => (⟨insertRecord x r.records, insertRecord_ordered r.ordered⟩, none)

end Registry

end ServerSplit
