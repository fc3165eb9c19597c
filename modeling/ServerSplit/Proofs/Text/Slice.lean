import ServerSplit.Text.Basic

/-! Slices of a text between places where its characters meet. A text cut in three is found again by
the sizes of its parts. -/
namespace ServerSplit.Text

theorem size_eq_zero {t : Text} (h : t.size = 0) : t = [] := by
  cases t with
  | nil => rfl
  | cons c r =>
    have := c.utf8Size_pos
    rw [size_cons] at h
    omega

theorem size_pos {t : Text} (h : t ≠ []) : 0 < t.size :=
  Nat.pos_of_ne_zero fun h' => h (size_eq_zero h')

private theorem slice_go_head (b c : Text) : slice.go 0 (size b) (b ++ c) = b := by
  induction b with
  | nil =>
    cases c with
    | nil => rfl
    | cons d r => simp [slice.go, d.utf8Size_pos]
  | cons d b ih => simp [slice.go, ih]

/-- The middle of a text, by the sizes of what is before it and of itself. -/
theorem slice_append (a b c : Text) :
    slice (size a) (size a + size b) (a ++ (b ++ c)) = b := by
  unfold slice
  induction a with
  | nil => simpa using slice_go_head b c
  | cons d a ih =>
    have hd : ¬ d.utf8Size + size a + size b < d.utf8Size := by omega
    have hne : ¬ d.utf8Size + size a = 0 := by have := d.utf8Size_pos; omega
    have hs : d.utf8Size + size a - d.utf8Size = size a := by omega
    have ht : d.utf8Size + size a + size b - d.utf8Size = size a + size b := by omega
    rw [size_cons, List.cons_append, slice.go, if_neg hd, if_neg hne, hs, ht, ih]

theorem slice_all (t : Text) : slice 0 t.size t = t := by
  simpa using slice_append [] t []

/-- A byte count at which the text can be cut between two characters. -/
def Cuts (t : Text) (n : Nat) : Prop := ∃ a b, t = a ++ b ∧ a.size = n

theorem cuts_zero (t : Text) : Cuts t 0 := ⟨[], t, rfl, rfl⟩

theorem cuts_size (t : Text) : Cuts t t.size := ⟨t, [], by simp, rfl⟩

theorem Cuts.le {t : Text} {n : Nat} (h : Cuts t n) : n ≤ t.size := by
  obtain ⟨a, b, rfl, rfl⟩ := h
  simp

/-- A prefix of a prefix, by their sizes. -/
theorem exists_append_of_size_le {a b c d : Text} (h : a ++ b = c ++ d) (hs : a.size ≤ c.size) :
    ∃ m, c = a ++ m ∧ b = m ++ d := by
  rcases List.append_eq_append_iff.1 h with ⟨m, hc, hb⟩ | ⟨m, ha, hd⟩
  · exact ⟨m, hc, hb⟩
  · have hm : m = [] := size_eq_zero (by rw [ha, size_append] at hs; omega)
    subst hm
    exact ⟨[], by simpa using ha.symm, by simpa using hd.symm⟩

/-- Two cuts, one not after the other, part the text in three. -/
theorem Cuts.split {t : Text} {m n : Nat} (hm : Cuts t m) (hn : Cuts t n) (h : m ≤ n) :
    ∃ a b c, t = a ++ (b ++ c) ∧ a.size = m ∧ m + b.size = n := by
  obtain ⟨a, r, rfl, rfl⟩ := hm
  obtain ⟨p, c, he, rfl⟩ := hn
  obtain ⟨b, rfl, rfl⟩ := exists_append_of_size_le he h
  exact ⟨a, b, c, rfl, rfl, by simp⟩

end ServerSplit.Text
