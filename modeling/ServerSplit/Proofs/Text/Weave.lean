import ServerSplit.Proofs.Text.Slice

/-! Texts taken apart along ranges of bytes and put together again. Ranges that do not overlap cut a text
into the pieces in them and the pieces outside; weaving them gives the text. -/
namespace ServerSplit.Text

/-- Ranges of bytes one behind another from byte `n` on, none of them empty. -/
def Apart : Nat → List (Nat × Nat) → Prop
  | _, [] => True
  | n, r :: rs => n ≤ r.1 ∧ r.1 < r.2 ∧ Apart r.2 rs

/-- The ends of a range are between characters of the text. -/
def Fits (t : Text) (r : Nat × Nat) : Prop := Cuts t r.1 ∧ Cuts t r.2

/-- The pieces of a text from byte `n` on that are in none of the ranges. -/
def outside (t : Text) : Nat → List (Nat × Nat) → List Text
  | n, [] => [slice n t.size t]
  | n, r :: rs => slice n r.1 t :: outside t r.2 rs

/-- The pieces of a text in the ranges. -/
def inside (t : Text) (rs : List (Nat × Nat)) : List Text := rs.map fun r => slice r.1 r.2 t

/-- Pieces with a text between each two of them. -/
def weave : List Text → List Text → Text
  | p :: ps, x :: xs => p ++ x ++ weave ps xs
  | ps, _ => ps.flatten

theorem Apart.append {m n : Nat} {rs qs : List (Nat × Nat)} (hrs : Apart m rs) (hqs : Apart n qs)
    (hmn : m ≤ n) (hn : ∀ r ∈ rs, r.2 ≤ n) : Apart m (rs ++ qs) := by
  induction rs generalizing m with
  | nil =>
    cases qs with
    | nil => trivial
    | cons q qs => exact ⟨Nat.le_trans hmn hqs.1, hqs.2⟩
  | cons r rs ih =>
    obtain ⟨h, h', hrs⟩ := hrs
    exact ⟨h, h', ih hrs (hn r (by simp)) fun q hq => hn q (by simp [hq])⟩

theorem Apart.le {n : Nat} {rs : List (Nat × Nat)} (h : Apart n rs) {r : Nat × Nat} (hr : r ∈ rs) :
    n ≤ r.1 := by
  induction rs generalizing n with
  | nil => cases hr
  | cons q rs ih =>
    obtain ⟨hn, hq, hrs⟩ := h
    rcases List.mem_cons.1 hr with rfl | hr
    · exact hn
    · have := ih hrs hr
      omega

theorem Apart.lt {n : Nat} {rs : List (Nat × Nat)} (h : Apart n rs) {r : Nat × Nat} (hr : r ∈ rs) :
    r.1 < r.2 := by
  induction rs generalizing n with
  | nil => cases hr
  | cons q rs ih =>
    obtain ⟨_, hq, hrs⟩ := h
    rcases List.mem_cons.1 hr with rfl | hr
    · exact hq
    · exact ih hrs hr

theorem Apart.pairwise {n : Nat} {rs : List (Nat × Nat)} (h : Apart n rs) :
    rs.Pairwise fun q r => q.1 < q.2 ∧ q.2 ≤ r.1 := by
  induction rs generalizing n with
  | nil => exact .nil
  | cons r rs ih => exact List.pairwise_cons.2 ⟨fun q hq => ⟨h.2.1, h.2.2.le hq⟩, ih h.2.2⟩

theorem Apart.behind {n : Nat} {r : Nat × Nat} {rs qs : List (Nat × Nat)} (h : Apart n (rs ++ r :: qs)) :
    Apart r.2 qs := by
  induction rs generalizing n with
  | nil => exact h.2.2
  | cons q rs ih => exact ih h.2.2

theorem apart_of_pairwise {n : Nat} {rs : List (Nat × Nat)} (hn : ∀ r ∈ rs, n ≤ r.1)
    (hlt : ∀ r ∈ rs, r.1 < r.2) (h : rs.Pairwise fun q r => q.2 ≤ r.1) : Apart n rs := by
  induction rs generalizing n with
  | nil => trivial
  | cons r rs ih =>
    obtain ⟨hr, hrs⟩ := List.pairwise_cons.1 h
    exact ⟨hn r (by simp), hlt r (by simp), ih hr (fun q hq => hlt q (by simp [hq])) hrs⟩

theorem slice_trans {t : Text} {i j k : Nat} (hi : Cuts t i) (hj : Cuts t j) (hk : Cuts t k)
    (hij : i ≤ j) (hjk : j ≤ k) : slice i j t ++ slice j k t = slice i k t := by
  obtain ⟨a, r, rfl, rfl⟩ := hi
  obtain ⟨p, r', hp, rfl⟩ := hj
  obtain ⟨b, rfl, rfl⟩ := exists_append_of_size_le hp hij
  obtain ⟨q, d, hq, rfl⟩ := hk
  have hq' : (a ++ b) ++ r' = q ++ d := by rw [List.append_assoc]; exact hq
  obtain ⟨c, rfl, rfl⟩ := exists_append_of_size_le hq' hjk
  have h₁ := slice_append a b (c ++ d)
  have h₂ := slice_append (a ++ b) c d
  have h₃ := slice_append a (b ++ c) d
  simp only [size_append, List.append_assoc, Nat.add_assoc] at h₁ h₂ h₃ ⊢
  rw [h₁, h₂, h₃]

theorem size_slice {t : Text} {i j : Nat} (hi : Cuts t i) (hj : Cuts t j) (h : i ≤ j) :
    (slice i j t).size = j - i := by
  obtain ⟨a, b, c, rfl, rfl, rfl⟩ := hi.split hj h
  rw [slice_append]
  omega

/-- What stands behind the first `n` bytes of a text leaves the cuts among them. -/
theorem Cuts.slice_append {t : Text} {m n : Nat} (hm : Cuts t m) (hn : Cuts t n) (h : m ≤ n) (w : Text) :
    Cuts (slice 0 n t ++ w) m := by
  refine ⟨slice 0 m t, slice m n t ++ w, ?_, size_slice (cuts_zero t) hm (Nat.zero_le _)⟩
  rw [← List.append_assoc, slice_trans (cuts_zero t) hm hn (Nat.zero_le _) h]

/-- The pieces in ranges and outside them are the text. -/
theorem weave_outside {t : Text} {n : Nat} {rs : List (Nat × Nat)} (hn : Cuts t n) (h : Apart n rs)
    (hfit : ∀ r ∈ rs, Fits t r) : weave (outside t n rs) (inside t rs) = slice n t.size t := by
  induction rs generalizing n with
  | nil => simp [outside, inside, weave]
  | cons r rs ih =>
    obtain ⟨hstart, hstop⟩ := hfit r (by simp)
    obtain ⟨hle, hlt, hrs⟩ := h
    have hrest := ih hstop hrs fun q hq => hfit q (by simp [hq])
    simp only [inside] at hrest
    simp only [outside, inside, List.map_cons, weave, hrest]
    rw [slice_trans hn hstart hstop hle (Nat.le_of_lt hlt),
      slice_trans hn hstop (cuts_size t) (by omega) hstop.le]

end ServerSplit.Text
