import Mathlib.Algebra.GroupWithZero.Nat
import Mathlib.Data.List.Nodup
import Mathlib.Data.List.Pairwise
import ServerSplit.Proofs.Text.Weave
import ServerSplit.Splice

/-! Edits that do not overlap may be made in any order: the last one first leaves the others where they
were. What comes of them is what one pass over the text from the left writes. -/
namespace ServerSplit.Edit

open Text

def range (e : Edit) : Nat × Nat := (e.start, e.stop)

/-- One edit behind which everything is done already. -/
private theorem apply_woven {t w : Text} {n : Nat} {e : Edit} (hn : Cuts t n) (hfit : Fits t e.range)
    (hle : n ≤ e.start) (hlt : e.start < e.stop) :
    apply (slice 0 e.stop t ++ w) e = slice 0 n t ++ (slice n e.start t ++ e.replacement ++ w) := by
  obtain ⟨hstart, hstop⟩ := hfit
  simp only [range] at hstart hstop
  have hhead : slice 0 e.start t ++ slice e.start e.stop t = slice 0 e.stop t :=
    slice_trans (cuts_zero t) hstart hstop (Nat.zero_le _) (Nat.le_of_lt hlt)
  have hsize : (slice 0 e.start t).size = e.start := size_slice (cuts_zero t) hstart (Nat.zero_le _)
  have hsize' : (slice 0 e.stop t).size = e.stop := size_slice (cuts_zero t) hstop (Nat.zero_le _)
  have hbefore : slice 0 e.start (slice 0 e.stop t ++ w) = slice 0 e.start t := by
    have := slice_append [] (slice 0 e.start t) (slice e.start e.stop t ++ w)
    simpa [hsize, ← List.append_assoc, hhead] using this
  have hbehind : slice e.stop (slice 0 e.stop t ++ w).size (slice 0 e.stop t ++ w) = w := by
    have := slice_append (slice 0 e.stop t) w []
    simpa [hsize'] using this
  rw [apply, hbefore, hbehind, ← slice_trans (cuts_zero t) hn hstart (Nat.zero_le _) hle]
  simp

/-- Edits one behind another, made from the last to the first. -/
private theorem foldr_apply {t : Text} {n : Nat} {es : List Edit} (hn : Cuts t n)
    (h : Apart n (es.map range)) (hfit : ∀ e ∈ es, Fits t e.range) :
    es.foldr (fun e t => apply t e) t =
      slice 0 n t ++ weave (outside t n (es.map range)) (es.map replacement) := by
  induction es generalizing n with
  | nil =>
    simp [outside, weave, slice_trans (cuts_zero t) hn (cuts_size t) (Nat.zero_le _) hn.le, slice_all]
  | cons e es ih =>
    obtain ⟨hle, hlt, hes⟩ := h
    have he := hfit e (by simp)
    rw [List.foldr_cons, ih he.2 hes fun e' he' => hfit e' (by simp [he'])]
    exact apply_woven hn he hle hlt

/-- Edits in the order in which they are made, the last one first. -/
def backward (es : List Edit) : List Edit := es.mergeSort fun a b => decide (b.start ≤ a.start)

private theorem starts_pairwise {es : List Edit} (h : Apart 0 (es.map range)) :
    es.Pairwise fun e f => e.start < f.start :=
  (List.pairwise_map.1 h.pairwise).imp fun hef => Nat.lt_of_lt_of_le hef.1 hef.2

theorem backward_eq_reverse {es fs : List Edit} (hperm : es.Perm fs) (h : Apart 0 (fs.map range)) :
    backward es = fs.reverse := by
  have hstarts := starts_pairwise h
  have hinj : (fs.map start).Nodup := (List.pairwise_map.2 hstarts).imp Nat.ne_of_lt
  refine @List.Perm.eq_of_pairwise _ (fun a b => decide (b.start ≤ a.start)) _ _ ?_ ?_ ?_ ?_
  · intro a b ha hb hab hba
    have ha : a ∈ fs := hperm.mem_iff.1 (List.mem_mergeSort.1 ha)
    exact List.inj_on_of_nodup_map hinj ha (List.mem_reverse.1 hb)
      (Nat.le_antisymm (of_decide_eq_true hba) (of_decide_eq_true hab))
  · exact List.pairwise_mergeSort (by simp; omega) (by simp; omega) es
  · rw [List.pairwise_reverse]
    exact hstarts.imp fun h => by simpa using Nat.le_of_lt h
  · exact (List.mergeSort_perm es _).trans (hperm.trans fs.reverse_perm.symm)

/-- Each edit ends before all that were made before it start. -/
theorem backward_clear {es fs : List Edit} (hperm : es.Perm fs) (h : Apart 0 (fs.map range)) :
    (backward es).Pairwise fun e f => f.stop ≤ e.start := by
  rw [backward_eq_reverse hperm h, List.pairwise_reverse]
  exact (List.pairwise_map.1 h.pairwise).imp And.right

/-- However the edits are listed, the pieces outside their ranges stay in order, with each replacement
in place of its range. -/
theorem applyAll_eq_weave {t : Text} {es fs : List Edit} (hperm : es.Perm fs)
    (h : Apart 0 (fs.map range)) (hfit : ∀ e ∈ fs, Fits t e.range) :
    applyAll t es = weave (outside t 0 (fs.map range)) (fs.map replacement) := by
  have hempty : slice 0 0 t = [] := Text.size_eq_zero (size_slice (cuts_zero t) (cuts_zero t) (Nat.le_refl 0))
  have hall : applyAll t es = (backward es).foldl apply t := rfl
  rw [hall, backward_eq_reverse hperm h, List.foldl_reverse, foldr_apply (cuts_zero t) h hfit, hempty,
    List.nil_append]

/-! ### One pass from the left -/

/-- Whether the byte at `n` is in the range. -/
def Covers (e : Edit) (n : Nat) : Prop := e.start ≤ n ∧ n < e.stop

instance (e : Edit) (n : Nat) : Decidable (e.Covers n) := inferInstanceAs (Decidable (_ ∧ _))

/-- No byte is in both ranges. -/
def Clear (e f : Edit) : Prop := ∀ n, e.Covers n → ¬ f.Covers n

instance : Std.Symm Clear := ⟨fun _ _ h n hf he => h n he hf⟩

/-- Edits that a text can take in any order: each range holds a byte and ends between characters of the
text, and no two ranges share a byte. -/
structure Separate (t : Text) (es : List Edit) : Prop where
  nonempty : ∀ e ∈ es, e.start < e.stop
  clear : es.Pairwise Clear
  fits : ∀ e ∈ es, Fits t e.range

/-- A text read once from the left, its first character at byte `n`: a character that no range covers
stays, and where a range starts, its replacement stands. -/
def splice (es : List Edit) : Nat → Text → Text
  | _, [] => []
  | n, c :: r =>
    (es.filter (·.start = n)).flatMap replacement ++
      ((if ∃ e ∈ es, e.Covers n then [] else [c]) ++ splice es (n + c.utf8Size) r)

theorem splice_append (es : List Edit) (n : Nat) (a b : Text) :
    splice es n (a ++ b) = splice es n a ++ splice es (n + a.size) b := by
  induction a generalizing n with
  | nil => simp [splice]
  | cons c a ih => simp [splice, ih, Nat.add_assoc]

/-- Edits in the order of the text. -/
def forward (es : List Edit) : List Edit := es.mergeSort fun a b => decide (a.start ≤ b.start)

theorem forward_perm (es : List Edit) : es.Perm (forward es) := (List.mergeSort_perm es _).symm

theorem forward_pairwise (es : List Edit) : (forward es).Pairwise fun e f => e.start ≤ f.start := by
  have hsorted : (forward es).Pairwise fun e f => decide (e.start ≤ f.start) = true :=
    List.pairwise_mergeSort (by simp; omega) (by simp; omega) es
  exact hsorted.imp of_decide_eq_true

namespace Separate
variable {t : Text} {es fs : List Edit} {e f : Edit} {n : Nat}

theorem perm (h : Separate t es) (hperm : es.Perm fs) : Separate t fs where
  nonempty e he := h.nonempty e (hperm.mem_iff.2 he)
  clear := hperm.pairwise h.clear symm
  fits e he := h.fits e (hperm.mem_iff.2 he)

theorem covers_start (h : Separate t es) (he : e ∈ es) : e.Covers e.start :=
  ⟨Nat.le_refl _, h.nonempty e he⟩

theorem eq_of_covers (h : Separate t es) (he : e ∈ es) (hf : f ∈ es) (hen : e.Covers n)
    (hfn : f.Covers n) : e = f := by
  by_contra hne
  exact h.clear.forall he hf hne n hen hfn

theorem nodup (h : Separate t es) : es.Nodup := by
  refine h.clear.imp_of_mem fun he _ hclear heq => ?_
  subst heq
  exact hclear _ (h.covers_start he) (h.covers_start he)

/-- Of two ranges the one that starts first ends before the other starts. -/
theorem apart (h : Separate t es) : Apart 0 ((forward es).map range) := by
  have hforward := h.perm (forward_perm es)
  refine apart_of_pairwise (fun _ _ => Nat.zero_le _) ?_ (List.pairwise_map.2 ?_)
  · exact List.forall_mem_map.2 hforward.nonempty
  · refine ((forward_pairwise es).and hforward.clear).imp_of_mem fun _ hf hef => ?_
    by_contra hlt
    exact hef.2 _ ⟨hef.1, Nat.lt_of_not_le hlt⟩ (hforward.covers_start hf)

/-- No other range starts where one does. -/
theorem filter_start (h : Separate t es) (he : e ∈ es) : es.filter (·.start = e.start) = [e] := by
  have hnodup := h.nodup.filter fun f => decide (f.start = e.start)
  apply List.perm_singleton.1
  apply (List.perm_ext_iff_of_nodup hnodup (List.nodup_singleton e)).2
  intro f
  rw [List.mem_filter, List.mem_singleton, decide_eq_true_eq]
  constructor
  · rintro ⟨hf, heq⟩
    exact h.eq_of_covers hf he (heq ▸ h.covers_start hf) (h.covers_start he)
  · rintro rfl
    exact ⟨he, rfl⟩

/-- No range starts at a byte that none covers. -/
theorem filter_start_of_free (h : Separate t es) (hfree : ∀ e ∈ es, ¬ e.Covers n) :
    es.filter (·.start = n) = [] := by
  refine List.filter_eq_nil_iff.2 fun f hf heq => hfree f hf ?_
  exact of_decide_eq_true heq ▸ h.covers_start hf

/-- No range starts behind the start of another, while that covers. -/
theorem filter_start_of_inner (h : Separate t es) (he : e ∈ es) (hlt : e.start < n) (hn : n < e.stop) :
    es.filter (·.start = n) = [] := by
  refine List.filter_eq_nil_iff.2 fun f hf heq => ?_
  have hstart := of_decide_eq_true heq
  have := h.eq_of_covers hf he (hstart ▸ h.covers_start hf) ⟨Nat.le_of_lt hlt, hn⟩
  subst this
  omega

/-- A piece outside the ranges stays. -/
theorem splice_outside (h : Separate t es) (a : Text)
    (hfree : ∀ e ∈ es, e.stop ≤ n ∨ n + a.size ≤ e.start) : splice es n a = a := by
  induction a generalizing n with
  | nil => rfl
  | cons c a ih =>
    have hc := c.utf8Size_pos
    simp only [size_cons] at hfree
    have hnone : ∀ e ∈ es, ¬ e.Covers n := by
      intro e he hcovers
      have := hfree e he
      simp only [Covers] at hcovers
      omega
    have hrest : splice es (n + c.utf8Size) a = a := by
      refine ih fun e he => ?_
      have := hfree e he
      omega
    rw [splice, h.filter_start_of_free hnone, if_neg (by simpa using hnone), hrest]
    rfl

/-- Behind its first character nothing comes of the piece in a range. -/
theorem splice_inner (h : Separate t es) (he : e ∈ es) (a : Text) (hlt : e.start < n)
    (hstop : n + a.size ≤ e.stop) : splice es n a = [] := by
  induction a generalizing n with
  | nil => rfl
  | cons c a ih =>
    have hc := c.utf8Size_pos
    rw [size_cons] at hstop
    have hcovers : e.Covers n := ⟨Nat.le_of_lt hlt, by omega⟩
    rw [splice, h.filter_start_of_inner he hlt hcovers.2, if_pos ⟨e, he, hcovers⟩,
      ih (by omega) (by omega)]
    rfl

/-- The piece in a range becomes its replacement. -/
theorem splice_range (h : Separate t es) (he : e ∈ es) (a : Text) (hsize : e.start + a.size = e.stop) :
    splice es e.start a = e.replacement := by
  have hlt := h.nonempty e he
  cases a with
  | nil =>
    rw [size_nil] at hsize
    omega
  | cons c a =>
    have hc := c.utf8Size_pos
    rw [size_cons] at hsize
    rw [splice, h.filter_start he, if_pos ⟨e, he, h.covers_start he⟩,
      h.splice_inner he a (by omega) (by omega)]
    simp

/-- The pass up to the end of the next range: what stands before the range stays, and the replacement
follows. -/
private theorem splice_next (h : Separate t es) (hn : Cuts t n) (he : e ∈ es) (hle : n ≤ e.start)
    (hnext : ∀ f ∈ es, f.stop ≤ n ∨ e.start ≤ f.start) :
    splice es n (slice n t.size t) =
      slice n e.start t ++ (e.replacement ++ splice es e.stop (slice e.stop t.size t)) := by
  obtain ⟨hstart, hstop⟩ := h.fits e he
  simp only [range] at hstart hstop
  have hlt := Nat.le_of_lt (h.nonempty e he)
  have hkept : n + (slice n e.start t).size = e.start := by
    rw [size_slice hn hstart hle]
    omega
  have hgone : e.start + (slice e.start e.stop t).size = e.stop := by
    rw [size_slice hstart hstop hlt]
    omega
  calc splice es n (slice n t.size t)
      = splice es n (slice n e.start t ++ (slice e.start e.stop t ++ slice e.stop t.size t)) := by
        rw [slice_trans hstart hstop (cuts_size t) hlt hstop.le,
          slice_trans hn hstart (cuts_size t) hle hstart.le]
    _ = splice es n (slice n e.start t) ++ (splice es e.start (slice e.start e.stop t) ++
          splice es e.stop (slice e.stop t.size t)) := by
        rw [splice_append, splice_append, hkept, hgone]
    _ = slice n e.start t ++ (e.replacement ++ splice es e.stop (slice e.stop t.size t)) := by
        rw [h.splice_outside _ (by rwa [hkept]), h.splice_range he _ hgone]

/-- What the pass makes of a text from byte `n` on, where every range has been passed or is one of `fs`. -/
private theorem splice_weaves (h : Separate t es) (hn : Cuts t n) (hapart : Apart n (fs.map range))
    (hsub : ∀ e ∈ fs, e ∈ es) (hleft : ∀ e ∈ es, e.stop ≤ n ∨ e ∈ fs) :
    splice es n (slice n t.size t) = weave (outside t n (fs.map range)) (fs.map replacement) := by
  -- on the ranges to the right of `n`; `es` stays, since the pass asks all of it at every byte
  induction fs generalizing n with
  | nil =>
    have hfree : ∀ e ∈ es, e.stop ≤ n ∨ n + (slice n t.size t).size ≤ e.start :=
      fun e he => .inl ((hleft e he).resolve_right List.not_mem_nil)
    rw [h.splice_outside _ hfree]
    simp [outside, weave]
  | cons e fs ih =>
    obtain ⟨hle, hlt, hfs⟩ := hapart
    simp only [range] at hle hlt hfs
    have he := hsub e (by simp)
    have hnext : ∀ f ∈ es, f.stop ≤ n ∨ e.start ≤ f.start := by
      intro f hf
      rcases hleft f hf with hbefore | hf
      · exact .inl hbefore
      · rcases List.mem_cons.1 hf with rfl | hf
        · exact .inr (Nat.le_refl _)
        · exact .inr (Nat.le_trans (Nat.le_of_lt hlt) (hfs.le (List.mem_map_of_mem hf)))
    have hleft' : ∀ f ∈ es, f.stop ≤ e.stop ∨ f ∈ fs := by
      intro f hf
      rcases hleft f hf with hbefore | hf
      · exact .inl (by omega)
      · rcases List.mem_cons.1 hf with rfl | hf
        · exact .inl (Nat.le_refl _)
        · exact .inr hf
    have hstop : Cuts t e.stop := (h.fits e he).2
    rw [h.splice_next hn he hle hnext, ih hstop hfs (fun f hf => hsub f (by simp [hf])) hleft']
    simp [outside, weave, range]

/-- Each range lies between characters of the text as it is when the turn of its edit comes. -/
theorem fits_in_turn (h : Separate t es) {done todo : List Edit} (hturn : backward es = done ++ e :: todo) :
    Fits (done.foldl apply t) e.range := by
  -- the edits made so far lie behind `e`, so the text still begins as `t` does, up to the end of `e`
  have hforward := h.perm (forward_perm es)
  rw [backward_eq_reverse (forward_perm es) h.apart, List.reverse_eq_iff] at hturn
  have hsplit : forward es = todo.reverse ++ e :: done.reverse := by simpa using hturn
  have happlied := h.apart
  rw [hsplit, List.map_append, List.map_cons] at happlied
  have hin : ∀ f ∈ e :: done.reverse, f ∈ forward es := by
    intro f hf
    rw [hsplit]
    exact List.mem_append_right _ hf
  have he := hin e (by simp)
  obtain ⟨hstart, hstop⟩ := hforward.fits e he
  rw [← List.foldr_reverse,
    foldr_apply hstop happlied.behind fun f hf => hforward.fits f (hin f (by simp [hf]))]
  exact ⟨hstart.slice_append hstop (Nat.le_of_lt (hforward.nonempty e he)) _,
    hstop.slice_append hstop (Nat.le_refl _) _⟩

end Separate

/-- A text loses the bytes in the ranges and gains those of the replacements. -/
private theorem size_weave {t : Text} {n : Nat} {es : List Edit} (hn : Cuts t n)
    (h : Apart n (es.map range)) (hfit : ∀ e ∈ es, Fits t e.range) :
    (weave (outside t n (es.map range)) (es.map replacement)).size +
        (es.map fun e => e.stop - e.start).sum + n =
      t.size + (es.map fun e => e.replacement.size).sum := by
  induction es generalizing n with
  | nil =>
    have hsize : (slice n t.size t).size + n = t.size := by
      rw [size_slice hn (cuts_size t) hn.le]
      exact Nat.sub_add_cancel hn.le
    simpa [outside, weave] using hsize
  | cons e es ih =>
    obtain ⟨hle, hlt, hes⟩ := h
    obtain ⟨hstart, hstop⟩ := hfit e (by simp)
    have hrest := ih hstop hes fun f hf => hfit f (by simp [hf])
    simp only [range] at hle hlt hstart hstop hrest
    simp only [List.map_cons, outside, weave, size_append, List.sum_cons, range, size_slice hn hstart hle]
    omega

/-- Edits whose ranges hold a byte each, have none in common and end between characters of the text give
the text of one pass from the left, which is the pieces outside the ranges, in order, with each replacement
in place of its range. No other order of the list changes that; each range lies in the text as it is when
the turn of its edit comes, before all that was changed; and the text loses the bytes of the ranges and gains
those of the replacements. -/
theorem applyAll_splices {t : Text} {es : List Edit} (h : Separate t es) :
    applyAll t es = splice es 0 t ∧
      applyAll t es = weave (outside t 0 ((forward es).map range)) ((forward es).map replacement) ∧
      (∀ fs, fs.Perm es → applyAll t fs = applyAll t es) ∧
      (∀ done e todo, backward es = done ++ e :: todo →
        Fits (done.foldl apply t) e.range ∧ ∀ d ∈ done, e.stop ≤ d.start) ∧
      (applyAll t es).size + (es.map fun e => e.stop - e.start).sum =
        t.size + (es.map fun e => e.replacement.size).sum := by
  have hperm := forward_perm es
  have hforward := h.perm hperm
  have hweave := applyAll_eq_weave hperm h.apart hforward.fits
  refine ⟨?_, hweave, ?_, ?_, ?_⟩
  · have hpass := h.splice_weaves (cuts_zero t) h.apart (fun e he => hperm.mem_iff.2 he)
      fun e he => .inr (hperm.mem_iff.1 he)
    rw [slice_all] at hpass
    rw [hweave, hpass]
  · intro fs hfs
    rw [hweave, applyAll_eq_weave (hfs.trans hperm) h.apart hforward.fits]
  · intro done e todo hturn
    refine ⟨h.fits_in_turn hturn, fun d hd => ?_⟩
    have hclear := backward_clear hperm h.apart
    rw [hturn] at hclear
    exact (List.pairwise_append.1 hclear).2.2 d hd e (by simp)
  · have hsize := size_weave (cuts_zero t) h.apart hforward.fits
    rw [← hweave] at hsize
    rw [(hperm.map _).sum_nat, (hperm.map fun e => e.replacement.size).sum_nat]
    simpa using hsize

/-- Characters of one to four bytes, with edits out of order whose ranges touch. -/
private def mixedText : Text := "aé😀b;c".toList

private def mixedEdits : List Edit := [⟨7, 8, "long".toList⟩, ⟨1, 3, []⟩, ⟨3, 7, "éé".toList⟩]

private theorem mixedEdits_separate : Separate mixedText mixedEdits where
  nonempty := by decide
  clear := by
    simp only [mixedEdits, List.pairwise_cons, List.mem_cons, List.not_mem_nil, Clear, Covers]
    grind
  fits := by
    have h₁ : Cuts mixedText 1 := ⟨"a".toList, "é😀b;c".toList, rfl, rfl⟩
    have h₃ : Cuts mixedText 3 := ⟨"aé".toList, "😀b;c".toList, rfl, rfl⟩
    have h₇ : Cuts mixedText 7 := ⟨"aé😀".toList, "b;c".toList, rfl, rfl⟩
    have h₈ : Cuts mixedText 8 := ⟨"aé😀b".toList, ";c".toList, rfl, rfl⟩
    simp only [mixedEdits, List.forall_mem_cons]
    exact ⟨⟨h₇, h₈⟩, ⟨h₁, h₃⟩, ⟨h₃, h₇⟩, by simp⟩

theorem applyAll_splices_mixed :
    Separate mixedText mixedEdits ∧ applyAll mixedText mixedEdits = "aéélong;c".toList ∧
      applyAll mixedText mixedEdits.reverse = "aéélong;c".toList ∧
      Fits (apply mixedText ⟨7, 8, "long".toList⟩) (3, 7) ∧
      (applyAll mixedText mixedEdits).size + 7 = mixedText.size + 8 := by
  obtain ⟨hpass, -, horder, hturns, hsize⟩ := applyAll_splices mixedEdits_separate
  have hread : splice mixedEdits 0 mixedText = "aéélong;c".toList := by decide
  have hperm : mixedEdits.Perm [⟨1, 3, []⟩, ⟨3, 7, "éé".toList⟩, ⟨7, 8, "long".toList⟩] := by decide
  have hbackward : backward mixedEdits =
      [⟨7, 8, "long".toList⟩] ++ ⟨3, 7, "éé".toList⟩ :: [⟨1, 3, []⟩] :=
    backward_eq_reverse hperm (by simp [Apart, range])
  exact ⟨mixedEdits_separate, hpass.trans hread,
    (horder _ (List.reverse_perm _)).trans (hpass.trans hread), (hturns _ _ _ hbackward).1, hsize⟩

end ServerSplit.Edit
