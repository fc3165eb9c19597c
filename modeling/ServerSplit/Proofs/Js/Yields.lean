import ServerSplit.Proofs.Js.Functions

/-! What a rule comes to where the text is known. With enough fuel the results of its parts give the
result of the rule; and an alternative comes to nothing where the text does not begin with its token. -/
namespace ServerSplit.Js

open Grammar (R Part)

namespace Rule

/-! ### Results with enough fuel -/

/-- With any fuel from `k` on, the rule comes to the given result. -/
def Yields (k : Nat) (r : R) (s : Reader) (o : Option Reader) : Prop := ∀ n, r.run grammar (n + k) s = o

/-- A rule that can be read with no fuel yields nothing. -/
theorem yields_none {k : Nat} {r : R} {s : Reader} (h : ∀ N s', ¬ Runs N r s s') : Yields k r s none := by
  intro n
  cases hr : run grammar (n + k) r s with
  | none => rfl
  | some s' => exact (h (n + k) s' ⟨n + k, Nat.le_refl _, hr⟩).elim

namespace Yields

variable {k l : Nat} {a b r : R} {s t u : Reader} {o : Option Reader}

theorem mono (h : Yields k r s o) (hk : k ≤ l) : Yields l r s o := by
  intro n
  obtain ⟨m, rfl⟩ := Nat.exists_eq_add_of_le hk
  rw [Nat.add_comm k, ← Nat.add_assoc]
  exact h (n + m)

theorem step {a : Step} (h : a.run s = o) : Yields (k + 1) (.step a) s o := fun _ => h

theorem part {p : Part} (h : Yields k (grammar p) s o) : Yields (k + 1) (.part p) s o := h

theorem seq (ha : Yields k a s (some t)) (hb : Yields k b t o) : Yields (k + 1) (a ++ b) s o := by
  intro n
  change run grammar (n + k + 1) (.seq a b) s = o
  simp only [run, ha n, hb n]

theorem seq_none (ha : Yields k a s none) : Yields (k + 1) (a ++ b) s none := by
  intro n
  change run grammar (n + k + 1) (.seq a b) s = none
  simp only [run, ha n]

theorem left (ha : Yields k a s (some t)) : Yields (k + 1) (a <|> b) s (some t) := by
  intro n
  change run grammar (n + k + 1) (.alt a b) s = some t
  simp only [run, ha n]

theorem right (ha : Yields k a s none) (hb : Yields k b s o) : Yields (k + 1) (a <|> b) s o := by
  intro n
  change run grammar (n + k + 1) (.alt a b) s = o
  simp only [run, ha n, hb n]

theorem opt_none (ha : Yields (k + 1) a s none) : Yields (k + 2) (opt a) s (some s) :=
  right ha fun _ => rfl

theorem many_stop (ha : Yields k a s none) : Yields (k + 1) (many a) s (some s) := by
  intro n
  change run grammar (n + k + 1) (.many a) s = some s
  simp only [run, ha n]

theorem many_next (ha : Yields k a s (some t)) (hlt : s.offset < t.offset) (hmany : Yields k (many a) t o) :
    Yields (k + 1) (many a) s o := by
  intro n
  change run grammar (n + k + 1) (.many a) s = o
  simp only [run, ha n, hlt, if_true, hmany n]

theorem present (ha : Yields k a s (some t)) : Yields (k + 1) (present a) s (some s) := by
  intro n
  change run grammar (n + k + 1) (.present a) s = some s
  simp only [run, ha n, Option.isSome_some, if_true]

theorem absent (ha : Yields k a s none) : Yields (k + 1) (absent a) s (some s) := by
  intro n
  change run grammar (n + k + 1) (.absent a) s = some s
  simp only [run, ha n, Option.isSome_none, Bool.false_eq_true, if_false]

theorem absent_none (ha : Yields k a s (some t)) : Yields (k + 1) (Rule.absent a) s none := by
  intro n
  change run grammar (n + k + 1) (.absent a) s = none
  simp only [run, ha n, Option.isSome_some, if_true]

/-- Where no alternative fits, the choice comes to nothing. -/
theorem anyOf_none {rs : List R} (hrs : ∀ r ∈ rs, Yields k r s none) :
    Yields (k + rs.length + 2) (anyOf rs) s none := by
  fun_induction Rule.anyOf rs with
  | case1 => exact absent_none fun _ => rfl
  | case2 r => exact (hrs r (by simp)).mono (by omega)
  | case3 r rs hne ih =>
    obtain ⟨hr, hrs⟩ := List.forall_mem_cons.1 hrs
    refine right (hr.mono (by omega)) (ih hrs)

/-- Where no other alternative fits, the choice comes to what the one comes to. -/
theorem anyOf {rs : List R} (hr : r ∈ rs) (h : Yields k r s o)
    (hrs : ∀ r' ∈ rs, r' = r ∨ Yields k r' s none) : Yields (k + rs.length + 2) (anyOf rs) s o := by
  cases o with
  | none =>
    refine anyOf_none fun r' hr' => ?_
    rcases hrs r' hr' with rfl | hnone
    · exact h
    · exact hnone
  | some t =>
    fun_induction Rule.anyOf rs with
    | case1 => cases hr
    | case2 r' =>
      rw [← List.mem_singleton.1 hr]
      exact h.mono (by omega)
    | case3 r' rs hne ih =>
      obtain ⟨hr', hrs⟩ := List.forall_mem_cons.1 hrs
      rcases hr' with rfl | hnone
      · exact left (h.mono (by omega))
      · rcases List.mem_cons.1 hr with rfl | hr
        · exact left (h.mono (by omega))
        · exact right (hnone.mono (by omega)) (ih hr hrs)

/-- A node is read behind its gap. -/
theorem node {kind : Kind} (hgap : s.settle {} = some t) (ha : Yields k a t.opened (some u))
    (hfinish : (Step.finish kind).run u = o) : Yields (k + 4) (node kind a) s o := by
  have hopening : Yields (k + 2) (gap {} ++ Rule.step .opening) s (some t.opened) :=
    seq (step hgap) (step rfl)
  exact seq (seq hopening (ha.mono (by omega))) (step hfinish)

theorem node_none {kind : Kind} (hgap : s.settle {} = some t) (ha : Yields k a t.opened none) :
    Yields (k + 4) (Rule.node kind a) s none := by
  have hopening : Yields (k + 2) (gap {} ++ Rule.step .opening) s (some t.opened) :=
    seq (step hgap) (step rfl)
  exact seq_none (seq hopening (ha.mono (by omega)))

end Yields

/-! ### Alternatives that do not fit -/

end Rule

namespace Reader

/-- The gap `b` before the text `t` has been read. -/
structure Ready (b t : Text) (s : Reader) : Prop where
  settled : s.settled = true
  blank : s.blank = b
  rest : s.rest = t

theorem Ready.settle {b t : Text} {s : Reader} (h : s.Ready b t) (g : Gap) : s.settle g = some s := by
  simp only [Reader.settle, h.settled, if_true]

theorem Ready.token {b t w r : Text} {s : Reader} (h : s.Ready b t) (k : Leaf) {reads : Reads}
    (hreads : reads t = some (w, r)) :
    (Step.token k reads).run s = some { s.push k w r with closed := false } := by
  simp only [Step.run, h.settle, Option.bind_eq_bind, Option.bind_some, take, h.rest, hreads, Option.map_some]

theorem Ready.opened {b t : Text} {s : Reader} (h : s.Ready b t) : s.opened.Ready b t := ⟨h.settled, h.blank, h.rest⟩

end Reader

namespace Rule

/-- The rule comes to nothing where the text `t` stands behind the gap `b`. -/
def Stuck (b t : Text) (r : R) : Prop := ∀ N s s', s.Ready b t → ¬ Runs N r s s'

/-- There the rule reads no text. -/
def Stays (b t : Text) (r : R) : Prop := ∀ N s s', s.Ready b t → Runs N r s s' → s'.Ready b t

variable {b t : Text} {x y : R}

theorem Stuck.yields (h : Stuck b t x) {k : Nat} {s : Reader} (hs : s.Ready b t) : Yields k x s none :=
  yields_none fun N s' => h N s s' hs

theorem stuck_read {k : Leaf} {reads : Reads} (h : reads t = none) : Stuck b t (read k reads) := by
  intro N s s' hs hrun
  obtain ⟨u, hu, htake⟩ := Option.bind_eq_some_iff.1 hrun.step
  rw [hs.settle] at hu
  cases hu
  obtain ⟨p, hp, -⟩ := Option.map_eq_some_iff.1 htake
  rw [hs.rest, h] at hp
  cases hp

theorem Stuck.seq (h : Stuck b t x) : Stuck b t (x ++ y) := by
  intro N s s' hs hrun
  obtain ⟨u, hx, -⟩ := hrun.seq
  exact h N s u hs hx

theorem Stays.seq (h : Stays b t x) (hy : Stuck b t y) : Stuck b t (x ++ y) := by
  intro N s s' hs hrun
  obtain ⟨u, hx, hrun⟩ := hrun.seq
  exact hy N u s' (h N s u hs hx) hrun

theorem Stays.append (h : Stays b t x) (hy : Stays b t y) : Stays b t (x ++ y) := by
  intro N s s' hs hrun
  obtain ⟨u, hx, hrun⟩ := hrun.seq
  exact hy N u s' (h N s u hs hx) hrun

theorem Stuck.orElse (h : Stuck b t x) (h' : Stuck b t y) : Stuck b t (x <|> y) := by
  intro N s s' hs hrun
  rcases hrun.orElse with hrun | hrun
  · exact h N s s' hs hrun
  · exact h' N s s' hs hrun

theorem stuck_anyOf {rs : List R} (hne : rs ≠ []) (h : ∀ r ∈ rs, Stuck b t r) : Stuck b t (anyOf rs) := by
  intro N s s' hs hrun
  obtain ⟨r, hr, hrun⟩ := hrun.anyOf hne
  exact h r hr N s s' hs hrun

theorem Stuck.present (h : Stuck b t x) : Stuck b t (present x ++ y) := by
  refine Stuck.seq ?_
  intro N s s' hs hrun
  obtain ⟨-, u, hrun⟩ := hrun.present
  exact h N s u hs hrun

theorem Stuck.part {p : Part} (h : Stuck b t (grammar p)) : Stuck b t (Grammar.part p) := by
  intro N s s' hs hrun
  obtain ⟨M, -, hrun⟩ := hrun.part
  exact h M s s' hs hrun

theorem stays_gap (g : Gap) : Stays b t (gap g) := by
  intro N s s' hs hrun
  have hgap : s.settle g = some s' := hrun.step
  rw [hs.settle] at hgap
  cases hgap
  exact hs

theorem stays_opening : Stays b t (step .opening) := by
  intro N s s' hs hrun
  cases hrun.step
  exact hs.opened

theorem stays_adopt (n : Nat) : Stays b t (step (.adopt n)) := by
  intro N s s' hs hrun
  obtain ⟨p, -, hrun⟩ := Option.bind_eq_some_iff.1 hrun.step
  cases hrun
  exact ⟨hs.settled, hs.blank, hs.rest⟩

theorem stays_last (p : Tree → Bool) : Stays b t (last p) := by
  intro N s s' hs hrun
  have hlast := hrun.step
  simp only [Step.run] at hlast
  split at hlast
  · cases hlast
    exact hs
  · cases hlast

theorem stays_empty : Stays b t .empty := by
  intro N s s' hs hrun
  rw [hrun.empty]
  exact hs

theorem Stuck.node {k : Kind} (h : Stuck b t x) : Stuck b t (node k x) :=
  Stuck.seq (((stays_gap {}).append stays_opening).seq h)

theorem Stuck.wrap {k : Kind} {n : Nat} (h : Stuck b t x) : Stuck b t (wrap k n x) :=
  Stuck.seq ((stays_adopt n).seq h)

end Rule

end ServerSplit.Js
