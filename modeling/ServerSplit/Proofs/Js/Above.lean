import ServerSplit.Proofs.Js.Fullness

/-! What a rule builds stands above what was there. The trees that were read before a part of the grammar
and the nodes that were open around it are still there behind it, and untouched. -/
namespace ServerSplit.Js

/-! ### Trees above a floor -/

/-- The open nodes, innermost first: the last of them has the trees `floor` below its own and stands in
nodes with the trees `around`. Each has as many trees of its own as the bounds say. -/
def Above (floor : List Tree) (around : List (List Tree)) :
    Bounds → List Tree → List (List Tree) → Prop
  | [a], ts, us => (∃ own, ts = own ++ floor ∧ a ≤ Tree.solid own) ∧ us = around
  | a :: b :: as, ts, u :: us => a ≤ Tree.solid ts ∧ Above floor around (b :: as) u us
  | _, _, _ => False

namespace Above

variable {floor ts : List Tree} {around us : List (List Tree)} {a a' : Int} {as bs : Bounds}

/-- Trees are put on top of the innermost node. -/
theorem add (h : Above floor around (a :: as) ts us) (new : List Tree)
    (hn : a' ≤ a + Tree.solid new) : Above floor around (a' :: as) (new ++ ts) us := by
  match as, us, h with
  | [], _, ⟨⟨own, hown, ha⟩, hus⟩ =>
    refine ⟨⟨new ++ own, by rw [hown, List.append_assoc], ?_⟩, hus⟩
    rw [Tree.solid_append]
    omega
  | _ :: _, _ :: _, ⟨ha, h⟩ =>
    refine ⟨?_, h⟩
    rw [Tree.solid_append]
    omega

theorem weaken (h : Above floor around bs ts us) (hw : Bounds.weaker as bs = true) :
    Above floor around as ts us := by
  induction as generalizing bs ts us with
  | nil =>
    cases bs with
    | nil => exact h
    | cons b bs => cases hw
  | cons a as ih =>
    cases bs with
    | nil => cases hw
    | cons b bs =>
      simp only [Bounds.weaker, Bool.and_eq_true, decide_eq_true_eq] at hw
      obtain ⟨hab, hrest⟩ := hw
      cases as with
      | nil =>
        cases bs with
        | nil => exact h.add [] (by simpa using hab)
        | cons b' bs => cases hrest
      | cons a' as =>
        cases bs with
        | nil => cases hrest
        | cons b' bs =>
          cases us with
          | nil => cases h
          | cons u us => exact ⟨hab.trans h.1, ih h.2 hrest⟩

end Above

namespace Reader

private theorem le_solid_tail {n : Nat} {t : Tree} {ts : List Tree} (h : n + 1 ≤ Tree.solid (t :: ts)) :
    (if t.isComment then n + 1 else n) ≤ Tree.solid ts := by
  rw [Tree.solid_cons] at h
  split at h <;> simp_all
  omega

/-- Trees of which there are enough are split off as they are without those below them. -/
theorem splitLast_floor {n : Nat} {own floor us vs : List Tree} (hn : n ≤ Tree.solid own)
    (h : splitLast n (own ++ floor) = some (us, vs)) : ∃ kept, own = us ++ kept ∧ vs = kept ++ floor := by
  induction own generalizing n us with
  | nil =>
    obtain rfl : n = 0 := by simpa using hn
    cases floor <;> (cases h; exact ⟨[], rfl, rfl⟩)
  | cons t own ih =>
    cases n with
    | zero =>
      cases h
      exact ⟨t :: own, rfl, rfl⟩
    | succ n =>
      obtain ⟨p, hp, he⟩ := Option.map_eq_some_iff.1 h
      cases he
      obtain ⟨kept, rfl, hv⟩ := ih (le_solid_tail hn) hp
      exact ⟨kept, rfl, hv⟩

/-- Where there is a tree above the floor, only such a tree is recast. -/
theorem recastLast_floor {r : Recast} {own floor us : List Tree} (hn : 0 < Tree.solid own)
    (h : recastLast r (own ++ floor) = some us) :
    ∃ own', us = own' ++ floor ∧ Tree.solid own' = Tree.solid own := by
  induction own generalizing us with
  | nil => cases hn
  | cons t own ih =>
    rw [List.cons_append] at h
    unfold recastLast at h
    split at h
    · rename_i hc
      obtain ⟨vs, hvs, rfl⟩ := Option.map_eq_some_iff.1 h
      have hn' : 0 < Tree.solid own := by simpa [Tree.solid_cons, hc] using hn
      obtain ⟨own', rfl, hsolid⟩ := ih hn' hvs
      exact ⟨t :: own', rfl, by simp [Tree.solid_cons, hsolid]⟩
    · obtain ⟨u, hu, rfl⟩ := Option.map_eq_some_iff.1 h
      exact ⟨u :: own, rfl, by simp [Tree.solid_cons, (Recast.apply_alike hu).isComment]⟩

theorem exists_split {n : Nat} {ts : List Tree} (h : n ≤ Tree.solid ts) :
    ∃ us vs, ts = us ++ vs ∧ Tree.solid us = n := by
  induction ts generalizing n with
  | nil => exact ⟨[], [], rfl, (Nat.le_zero.1 h).symm⟩
  | cons t ts ih =>
    cases n with
    | zero => exact ⟨[], t :: ts, rfl, rfl⟩
    | succ n =>
      obtain ⟨us, vs, rfl, hus⟩ := ih (le_solid_tail h)
      refine ⟨t :: us, vs, rfl, ?_⟩
      rw [Tree.solid_cons, hus]
      split <;> omega

/-! ### Comments -/

/-- `s'` has a few comments more on top, and is the same reader else but for the place in the text. -/
structure Notes (s s' : Reader) : Prop where
  items : ∃ cs, s'.items = cs ++ s.items ∧ ∀ c ∈ cs, ∃ t : Token, c = .leaf t ∧ c.isComment = true
  outer : s'.outer = s.outer

theorem Notes.refl (s : Reader) : Notes s s := ⟨⟨[], rfl, by simp⟩, rfl⟩

theorem Notes.trans {s t u : Reader} (h : Notes s t) (h' : Notes t u) : Notes s u := by
  obtain ⟨⟨cs, hitems, hcs⟩, houter⟩ := h
  obtain ⟨⟨ds, hitems', hds⟩, houter'⟩ := h'
  refine ⟨⟨ds ++ cs, by rw [hitems', hitems, List.append_assoc], ?_⟩, houter'.trans houter⟩
  exact List.forall_mem_append.2 ⟨hds, hcs⟩

theorem notes_skipBlanks (s : Reader) : Notes s s.skipBlanks := ⟨⟨[], rfl, by simp⟩, rfl⟩

theorem notes_push {s : Reader} {k : Leaf} (hk : k.weight = 0) (w r : Text) :
    Notes s (s.push k w r) := by
  refine ⟨⟨[.leaf ⟨k, s.blank, w, s.offset⟩], rfl, ?_⟩, rfl⟩
  rintro c hc
  rw [List.mem_singleton.1 hc]
  refine ⟨_, rfl, ?_⟩
  cases k <;> first | rfl | cases hk

theorem notes_comment {g : Gap} {s s' : Reader} (hs : s.comment g = some s') : Notes s s' := by
  unfold comment at hs
  split at hs
  · cases hs
  · obtain ⟨⟨k, w, r⟩, hc, rfl⟩ := Option.map_eq_some_iff.1 hs
    exact s.notes_skipBlanks.trans (notes_push (comment?_weight hc) w r)

theorem notes_settle {g : Gap} {s s' : Reader} (hs : s.settle g = some s') : Notes s s' := by
  unfold settle at hs
  split at hs
  · cases hs
    exact .refl s
  · exact go hs
where
  go {n : Text} {s : Reader} (hs : settle.go g n s = some s') : Notes s s' := by
    induction n generalizing s with
    | nil => cases hs
    | cons _ n ih =>
      simp only [settle.go] at hs
      split at hs
      · cases hs
      · split at hs
        · rename_i hc
          exact (s.notes_skipBlanks.trans (notes_push (comment?_weight hc) _ _)).trans (ih hs)
        · cases hs
          exact ⟨⟨[], rfl, by simp⟩, rfl⟩

theorem notes_insertion {operator : Bool} {s s' : Reader} (hs : s.insertion operator = some s') :
    Notes s s' := by
  unfold insertion at hs
  split at hs
  · cases hs
  · exact go hs
where
  go {n : Text} {s : Reader} (hs : insertion.go operator n s = some s') : Notes s s' := by
    induction n generalizing s with
    | nil => cases hs
    | cons _ n ih =>
      simp only [insertion.go] at hs
      split at hs
      · cases hs
        exact ⟨⟨[], rfl, by simp⟩, rfl⟩
      · obtain ⟨p, hp, hs⟩ := Option.bind_eq_some_iff.1 hs
        exact (s.notes_skipBlanks.trans (notes_push rfl p.1 p.2)).trans (ih hs)

end Reader

/-! ### Rules that keep above the floor -/

/-- The step changes none but trees that the bounds promise. -/
def Step.keepsFloor : Step → Bounds → Bool
  | .adopt n, a :: _ => decide ((n : Int) ≤ a)
  | .recast _, a :: _ => decide (0 < a)
  | _, _ => true

/-- All steps of the rule change none but trees that the bounds promise; `need` says how many trees
there have to be before each part. -/
def Rule.keepsFloor {σ : Type} (gain : σ → Int) (need : σ → Nat) : Rule σ → Bounds → Bool
  | .empty, _ | .present _, _ | .absent _, _ => true
  | .step s, as => s.keepsFloor as
  | .part p, a :: _ => decide ((need p : Int) ≤ a)
  | .part _, [] => false
  | .seq r r', as => r.keepsFloor gain need as && (r.bounds gain as).any (r'.keepsFloor gain need)
  | .alt r r', as => r.keepsFloor gain need as && r'.keepsFloor gain need as
  | .many r, as => r.keepsFloor gain need as

open Reader

variable {floor : List Tree} {around : List (List Tree)} {as as' : Bounds} {s s' : Reader}

theorem Above.notes {a : Int} {as : Bounds} (h : Above floor around (a :: as) s.items s.outer)
    (hn : Notes s s') : Above floor around (a :: as) s'.items s'.outer := by
  obtain ⟨⟨cs, hitems, -⟩, houter⟩ := hn
  rw [hitems, houter]
  exact h.add cs (by omega)

theorem Above.push {a : Int} {as : Bounds} (h : Above floor around (a :: as) s.items s.outer)
    (k : Leaf) (w r : Text) :
    Above floor around ((a + k.weight) :: as) (s.push k w r).items (s.push k w r).outer := by
  refine h.add [.leaf ⟨k, s.blank, w, s.offset⟩] ?_
  cases k <;> simp [Tree.solid_cons, Tree.isComment, Tree.isLeaf, Leaf.weight]

theorem Above.take {a : Int} {as : Bounds} {k : Leaf} {reads : Reads}
    (h : Above floor around (a :: as) s.items s.outer) (hs : s.take k reads = some s') :
    Above floor around ((a + k.weight) :: as) s'.items s'.outer := by
  obtain ⟨p, -, rfl⟩ := Option.map_eq_some_iff.1 hs
  exact h.push k p.1 p.2

theorem Above.adopt {n : Nat} {a : Int} {as : Bounds} {ts us vs : List Tree} {ws : List (List Tree)}
    (h : Above floor around (a :: as) ts ws) (hn : (n : Int) ≤ a) (hs : splitLast n ts = some (us, vs)) :
    Above floor around (n :: (a - n) :: as) us (vs :: ws) := by
  have hsolid := splitLast_solid hs
  refine ⟨by omega, ?_⟩
  match as, ws, h with
  | [], _, ⟨⟨own, hown, ha⟩, hws⟩ =>
    subst hown
    obtain ⟨kept, rfl, hv⟩ := splitLast_floor (by omega) hs
    refine ⟨⟨kept, hv, ?_⟩, hws⟩
    rw [Tree.solid_append] at ha
    omega
  | _ :: _, _ :: _, ⟨ha, h⟩ =>
    refine ⟨?_, h⟩
    rw [← splitLast_append hs, Tree.solid_append] at ha
    omega

theorem Above.recast {r : Recast} {a : Int} {as : Bounds} {ts us : List Tree} {ws : List (List Tree)}
    (h : Above floor around (a :: as) ts ws) (ha : 0 < a) (hs : recastLast r ts = some us) :
    Above floor around (a :: as) us ws := by
  match as, ws, h with
  | [], _, ⟨⟨own, hown, hn⟩, hws⟩ =>
    subst hown
    obtain ⟨own', rfl, hsolid⟩ := recastLast_floor (by omega) hs
    exact ⟨⟨own', rfl, by omega⟩, hws⟩
  | _ :: _, _ :: _, ⟨hn, h⟩ =>
    rw [← List.append_nil ts] at hs
    obtain ⟨own', rfl, hsolid⟩ := recastLast_floor (by omega) hs
    rw [List.append_nil]
    exact ⟨by omega, h⟩

/-- What needs `n` trees stands on all but these, and what it leaves in their place stands above the
floor. -/
theorem Above.over {n : Nat} {a : Int} {as : Bounds} {ts : List Tree} {ws : List (List Tree)}
    (h : Above floor around (a :: as) ts ws) (hn : (n : Int) ≤ a) :
    ∃ own below, ts = own ++ below ∧ Tree.solid own = n ∧ ∀ (own' : List Tree) (k : Int),
      n + k ≤ Tree.solid own' → Above floor around ((a + k) :: as) (own' ++ below) ws := by
  cases as with
  | nil =>
    obtain ⟨⟨own, rfl, ha⟩, hws⟩ := h
    have hown : n ≤ Tree.solid own := by omega
    obtain ⟨us, vs, rfl, hus⟩ := exists_split hown
    refine ⟨us, vs ++ floor, List.append_assoc _ _ _, hus, ?_⟩
    intro own' k hk
    refine ⟨⟨own' ++ vs, (List.append_assoc _ _ _).symm, ?_⟩, hws⟩
    rw [Tree.solid_append] at ha ⊢
    omega
  | cons b as =>
    cases ws with
    | nil => cases h
    | cons w ws =>
      obtain ⟨ha, h⟩ := h
      have hown : n ≤ Tree.solid ts := by omega
      obtain ⟨us, vs, rfl, hus⟩ := exists_split hown
      refine ⟨us, vs, rfl, hus, ?_⟩
      intro own' k hk
      refine ⟨?_, h⟩
      rw [Tree.solid_append] at ha ⊢
      omega

/-- A step that changes none but trees of the bounds leaves the floor. -/
theorem Step.above {a : Step} (hb : a.bounds as = some as') (hk : a.keepsFloor as = true)
    (hs : a.run s = some s') (h : Above floor around as s.items s.outer) :
    Above floor around as' s'.items s'.outer := by
  cases as with
  | nil => exact h.elim
  | cons b as =>
    cases a with
    | token k reads =>
      cases hb
      obtain ⟨t, ht, hs⟩ := Option.bind_eq_some_iff.1 hs
      exact (h.notes (notes_settle ht)).take hs
    | glued k reads =>
      cases hb
      simp only [Step.run] at hs
      split at hs
      · exact h.take hs
      · cases hs
    | comment g => cases hb; exact h.notes (notes_comment hs)
    | gap g => cases hb; exact h.notes (notes_settle hs)
    | question semicolon =>
      cases hb
      obtain ⟨passed, rest, w, r, _, _, rfl⟩ := exists_of_question hs
      exact Above.push (s := ⟨_, _, passed, _, _, s.items, s.outer⟩) h .mark w r
    | insertion operator => cases hb; exact h.notes (notes_insertion hs)
    | closing operator =>
      cases hb
      simp only [Step.run, Option.orElse_eq_orElse, Option.orElse_eq_or, Option.or_eq_some_iff] at hs
      rcases hs with hs | ⟨_, hs⟩
      · exact h.notes (notes_insertion hs)
      · cases hs
        exact h
    | opening =>
      cases hb
      cases hs
      exact ⟨Int.le_refl 0, h⟩
    | adopt n =>
      cases hb
      obtain ⟨⟨us, vs⟩, hp, hs⟩ := Option.bind_eq_some_iff.1 hs
      cases hs
      exact h.adopt (of_decide_eq_true hk) hp
    | finish k =>
      cases as with
      | nil => cases hb
      | cons c as =>
        simp only [Step.bounds] at hb
        split at hb
        · cases hb
          simp only [Step.run] at hs
          split at hs
          · cases hs
          · rename_i ts us houter
            cases hs
            rw [houter] at h
            exact h.2.add [.node k s.items.reverse] (by simp [Tree.solid_cons, Tree.isComment_node])
        · cases hb
    | recast r =>
      cases hb
      obtain ⟨us, hus, rfl⟩ := Option.map_eq_some_iff.1 hs
      exact h.recast (of_decide_eq_true hk) hus
    | last p =>
      cases hb
      simp only [Step.run] at hs
      split at hs
      · cases hs; exact h
      · cases hs

/-- Where every part of a grammar keeps above the trees that it needs, so does every rule. -/
theorem Rule.run_above {σ : Type} {g : σ → Rule σ} {gain : σ → Int} {need : σ → Nat}
    (hbounds : ∀ p, (g p).bounds gain [need p] = some [need p + gain p])
    (hkeeps : ∀ p, (g p).keepsFloor gain need [need p] = true) {n : Nat} {r : Rule σ}
    (hb : r.bounds gain as = some as') (hk : r.keepsFloor gain need as = true)
    (hs : r.run g n s = some s') (h : Above floor around as s.items s.outer) :
    Above floor around as' s'.items s'.outer := by
  induction n generalizing floor around r as as' s s' with
  | zero => cases hs
  | succ n ih =>
    cases r with
    | empty => cases hb; cases hs; exact h
    | step a => exact a.above hb hk hs h
    | part p =>
      cases as with
      | nil => cases hb
      | cons a as =>
        cases hb
        obtain ⟨own, below, hitems, hsolid, hback⟩ := h.over (of_decide_eq_true hk)
        have hstart : Above below s.outer [need p] s.items s.outer := ⟨⟨own, hitems, by omega⟩, rfl⟩
        obtain ⟨⟨own', hitems', hown⟩, houter⟩ := ih (hbounds p) (hkeeps p) hs hstart
        rw [hitems', houter]
        exact hback own' (gain p) hown
    | seq r r' =>
      obtain ⟨bs, hb, hb'⟩ := Option.bind_eq_some_iff.1 hb
      simp only [keepsFloor, hb, Bool.and_eq_true, Option.any_some] at hk
      simp only [run] at hs
      split at hs
      · rename_i t ht
        exact ih hb' hk.2 hs (ih hb hk.1 ht h)
      · cases hs
    | alt r r' =>
      obtain ⟨bs, hb, hb'⟩ := Option.bind_eq_some_iff.1 hb
      obtain ⟨cs, hc, hb'⟩ := Option.bind_eq_some_iff.1 hb'
      obtain ⟨hwb, hwc⟩ := Bounds.weaker_of_either hb'
      simp only [keepsFloor, Bool.and_eq_true] at hk
      simp only [run] at hs
      split at hs
      · rename_i t ht
        cases hs
        exact (ih hb hk.1 ht h).weaken hwb
      · exact (ih hc hk.2 hs h).weaken hwc
    | many r =>
      have hb₀ := hb
      obtain ⟨bs, hr, hw⟩ := Option.bind_eq_some_iff.1 hb
      split at hw
      · rename_i hw'
        cases hw
        simp only [run] at hs
        split at hs
        · rename_i t ht
          have hstep := (ih (r := r) hr hk ht h).weaken hw'
          split at hs
          · exact ih (r := .many r) hb₀ hk hs hstep
          · cases hs
            exact hstep
        · cases hs
          exact h
      · cases hw
    | present r =>
      cases hb
      simp only [run] at hs
      split at hs
      · cases hs; exact h
      · cases hs
    | absent r =>
      cases hb
      simp only [run] at hs
      split at hs
      · cases hs
      · cases hs; exact h

/-! ### The grammar -/

namespace Grammar
open Rule

/-- How many trees have to stand before a part. -/
def need : Part → Nat
  | .continuation _ _ => 1
  | _ => 0

theorem anyOf_of_forall {C : R → Prop} (hor : ∀ r r', C r → C r' → C (r <|> r')) {rs : List R}
    (hne : rs ≠ []) (h : ∀ r ∈ rs, C r) : C (anyOf rs) := by
  fun_induction anyOf rs with
  | case1 => exact (hne rfl).elim
  | case2 r => exact h r (by simp)
  | case3 r rs hrs ih =>
    exact hor _ _ (h r (by simp)) (ih hrs fun r hr => h r (List.mem_cons_of_mem _ hr))

/-- What goes on with an expression has a property of rules if each of the ways to go on has it, and
with two rules the choice between them. -/
theorem continuation_of_forall {C : R → Prop} (hor : ∀ r r', C r → C r' → C (r <|> r'))
    (hpattern : ∀ c, C (last isFilledArray ++ gap {} ++ present (operator "=") ++ assignment c))
    (hgap : ∀ (c : Ctx) r, C r →
      C (absent (last isFilledArray ++ gap {} ++ present (operator "=")) ++ gap c.gap ++ r))
    (haccess : ∀ c, C (behind constructorLevel (anyOf (access c))))
    (hassignments : ∀ c, ∀ r ∈ assignments c, C r)
    (hupdate : C (behind 14 (wrap .update 1 (operator "++" <|> operator "--"))))
    (hternary : ∀ c, C (behind 1 (ternary c)))
    (hbinary : ∀ c, ∀ l ∈ binaryLevels, C (behind l.1 (wrap .binary 1
      (anyOf (l.2.2.map operator) ++ part (.expression c l.2.1)))))
    (hword : ∀ c n s, C (behind n (wrap .binary 1 (keyword s ++ part (.expression c (headLevel + 1))))))
    (hnone : C (absent empty)) (c : Ctx) (level : Nat) : C (continuation c level) := by
  refine hor _ _ (hpattern c) (hgap c _ (anyOf_of_forall hor (by simp) ?_))
  simp only [List.forall_mem_append, List.forall_mem_cons]
  refine ⟨⟨⟨⟨haccess c, ?_⟩, ?_⟩, ?_⟩, ?_⟩
  · split
    · exact hassignments c
    · simp
  · split
    · exact List.forall_mem_singleton.2 hupdate
    · simp
  · split
    · exact List.forall_mem_singleton.2 (hternary c)
    · simp
  · unfold binary
    refine List.forall_mem_append.2 ⟨List.forall_mem_map.2 fun l hl => ?_, ?_⟩
    · exact hbinary c l (List.mem_filter.1 hl).1
    · split
      · refine List.forall_mem_cons.2 ⟨hword c _ _, List.forall_mem_singleton.2 ?_⟩
        split
        · split
          · exact hnone
          · exact hword c _ _
        · exact hword c _ _
      · simp

/-- The rule goes from one tree to one, and changes nothing below it. -/
private structure Firm (r : R) : Prop where
  bounds : r.bounds gain [1] = some [1]
  keeps : r.keepsFloor gain need [1] = true

private theorem Firm.orElse {r r' : R} (h : Firm r) (h' : Firm r') : Firm (r <|> r') where
  bounds := by
    change (r.bounds gain [1]).bind (fun bs => (r'.bounds gain [1]).bind (Bounds.either bs)) = some [1]
    rw [h.bounds, h'.bounds]
    rfl
  keeps := by
    change (r.keepsFloor gain need [1] && r'.keepsFloor gain need [1]) = true
    rw [h.keeps, h'.keeps]
    rfl

private theorem continuation_firm (c : Ctx) (level : Nat) : Firm (continuation c level) := by
  apply continuation_of_forall
  · exact fun r r' h h' => h.orElse h'
  · exact fun c => ⟨rfl, rfl⟩
  · exact fun c r h => ⟨h.bounds, h.keeps⟩
  · rintro ⟨_, _, noCall⟩
    cases noCall <;> exact ⟨rfl, rfl⟩
  · intro c r hr
    fin_cases hr <;> exact ⟨rfl, rfl⟩
  · exact ⟨rfl, rfl⟩
  · exact fun c => ⟨rfl, rfl⟩
  · intro c l hl
    fin_cases hl <;> exact ⟨rfl, rfl⟩
  · exact fun c n s => ⟨rfl, rfl⟩
  · exact ⟨rfl, rfl⟩

theorem part_keepsFloor (p : Part) : (grammar p).keepsFloor gain need [need p] = true := by
  cases p with
  | continuation c level => exact (continuation_firm c level).keeps
  | statement inCase => cases inCase <;> rfl
  | functionForm r => cases r <;> rfl
  | classForm r => cases r <;> rfl
  | _ => rfl

theorem part_bounds_need (p : Part) :
    (grammar p).bounds gain [need p] = some [need p + gain p] := by
  cases p with
  | continuation c level => exact (continuation_firm c level).bounds
  | statement inCase => exact part_bounds (.statement inCase)
  | block operator => exact part_bounds _
  | expression c level => exact part_bounds (.expression c level)
  | expressions c => exact part_bounds (.expressions c)
  | functionForm r => exact part_bounds (.functionForm r)
  | classForm r => exact part_bounds (.classForm r)
  | _ => rfl

end Grammar

end ServerSplit.Js
