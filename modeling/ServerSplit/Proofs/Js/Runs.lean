import ServerSplit.Proofs.Js.Above

/-! How the reading by a rule is put together from the readings by its parts, and what a reading leaves
as it was. -/
namespace ServerSplit.Js

open Grammar (R Part)

/-! ### What a step does to the trees -/

theorem Reader.Notes.trees {s s' : Reader} (h : Notes s s') :
    ∃ cs, s'.trees = s.trees ++ cs ∧ ∀ c ∈ cs, ∃ t : Token, c = .leaf t := by
  obtain ⟨⟨cs, hitems, hcs⟩, houter⟩ := h
  refine ⟨cs.reverse, by simp [Reader.trees, hitems, houter], ?_⟩
  intro c hc
  obtain ⟨t, ht, -⟩ := hcs c (List.mem_reverse.1 hc)
  exact ⟨t, ht⟩

/-- A step adds tokens behind the trees, closes a node around the last of them or recasts one of them. -/
theorem Step.trees_cases {a : Step} {s s' : Reader} (h : a.run s = some s') :
    (∃ new, s'.trees = s.trees ++ new ∧ ∀ c ∈ new, ∃ t : Token, c = .leaf t) ∨
    (∃ k xs, a = .finish k ∧ s.trees = xs ++ s.items.reverse ∧
      s'.trees = xs ++ [.node k s.items.reverse]) ∨
    (∃ r xs t u ys, a = .recast r ∧ s.trees = xs ++ t :: ys ∧ s'.trees = xs ++ u :: ys ∧
      r.apply t = some u) := by
  have noted {t : Reader} (hn : Reader.Notes s t) :
      ∃ new, t.trees = s.trees ++ new ∧ ∀ c ∈ new, ∃ t : Token, c = .leaf t := hn.trees
  have same (ht : s'.trees = s.trees) :
      ∃ new, s'.trees = s.trees ++ new ∧ ∀ c ∈ new, ∃ t : Token, c = .leaf t :=
    ⟨[], by simp [ht], by simp⟩
  have taken {k : Leaf} {reads : Reads} {t : Reader} (hn : Reader.Notes s t)
      (ht : t.take k reads = some s') :
      ∃ new, s'.trees = s.trees ++ new ∧ ∀ c ∈ new, ∃ t : Token, c = .leaf t := by
    obtain ⟨cs, hcs, hleaves⟩ := hn.trees
    obtain ⟨p, -, rfl⟩ := Option.map_eq_some_iff.1 ht
    refine ⟨cs ++ [.leaf ⟨k, t.blank, p.1, t.offset⟩], ?_, ?_⟩
    · rw [← List.append_assoc, ← hcs]
      exact Reader.push_trees t k p.1 p.2
    · exact List.forall_mem_append.2 ⟨hleaves, List.forall_mem_singleton.2 ⟨_, rfl⟩⟩
  cases a with
  | token k reads =>
    obtain ⟨t, ht, h⟩ := Option.bind_eq_some_iff.1 h
    exact .inl (taken (Reader.notes_settle ht) h)
  | glued k reads =>
    simp only [Step.run] at h
    split at h
    · exact .inl (taken (.refl s) h)
    · cases h
  | comment g => exact .inl (noted (Reader.notes_comment h))
  | gap g => exact .inl (noted (Reader.notes_settle h))
  | question semicolon =>
    obtain ⟨passed, rest, w, r, -, -, rfl⟩ := Reader.exists_of_question h
    refine .inl ⟨[_], Reader.push_trees _ .mark w r, List.forall_mem_singleton.2 ⟨_, rfl⟩⟩
  | insertion operator => exact .inl (noted (Reader.notes_insertion h))
  | closing operator =>
    simp only [Step.run, Option.orElse_eq_orElse, Option.orElse_eq_or, Option.or_eq_some_iff] at h
    rcases h with h | ⟨-, h⟩
    · exact .inl (noted (Reader.notes_insertion h))
    · cases h
      exact .inl (same rfl)
  | opening =>
    cases h
    exact .inl (same (by simp [Reader.trees]))
  | adopt n =>
    obtain ⟨⟨us, vs⟩, hp, h⟩ := Option.bind_eq_some_iff.1 h
    cases h
    exact .inl (same (by simp [Reader.trees, ← Reader.splitLast_append hp]))
  | finish k =>
    simp only [Step.run] at h
    split at h
    · cases h
    · rename_i ts us houter
      cases h
      refine .inr (.inl ⟨k, us.flatten.reverse ++ ts.reverse, rfl, ?_, ?_⟩)
      · simp [Reader.trees, houter]
      · simp [Reader.trees]
  | recast r =>
    obtain ⟨us, hus, rfl⟩ := Option.map_eq_some_iff.1 h
    obtain ⟨as, t, u, bs, hts, rfl, hu⟩ := Reader.exists_of_recastLast hus
    refine .inr (.inr ⟨r, s.outer.flatten.reverse ++ bs.reverse, t, u, as.reverse, rfl, ?_, ?_, hu⟩)
    · simp [Reader.trees, hts]
    · simp [Reader.trees]
  | last p =>
    simp only [Step.run] at h
    split at h
    · cases h
      exact .inl (same rfl)
    · cases h

/-- The tokens that are read stay as they are. -/
theorem Step.grows {a : Step} {s s' : Reader} (h : a.run s = some s') :
    Tree.tokensOf s.trees <+: Tree.tokensOf s'.trees := by
  rcases Step.trees_cases h with ⟨new, hnew, -⟩ | ⟨k, xs, -, hs, hs'⟩ | ⟨r, xs, t, u, ys, -, hs, hs', hu⟩
  · rw [hnew, Tree.tokensOf_append]
    exact List.prefix_append _ _
  · rw [hs, hs']
    simp [Tree.tokens]
  · rw [hs, hs']
    simp [Tree.tokensOf, (Recast.apply_alike hu).tokens]

namespace Reader

/-- A node is opened for what is read next. -/
def opened (s : Reader) : Reader := { s with items := [], outer := s.items :: s.outer }

@[simp] theorem opened_rest (s : Reader) : s.opened.rest = s.rest := rfl

@[simp] theorem opened_items (s : Reader) : s.opened.items = [] := rfl

@[simp] theorem opened_outer (s : Reader) : s.opened.outer = s.items :: s.outer := rfl

theorem settled_of_settle {g : Gap} {s t : Reader} (h : s.settle g = some t) : t.settled = true := by
  unfold settle at h
  split at h
  · rename_i hs
    cases h
    exact hs
  · exact go h
where
  go {n : Text} {s : Reader} (h : settle.go g n s = some t) : t.settled = true := by
    induction n generalizing s with
    | nil => cases h
    | cons _ n ih =>
      simp only [settle.go] at h
      split at h
      · cases h
      · split at h
        · exact ih h
        · cases h
          rfl

theorem settled_opened {g : Gap} {s t : Reader} (h : s.settle g = some t) : t.opened.settled = true :=
  settled_of_settle (t := t) h

end Reader

namespace Rule

/-- The rule leads from one reader to another with no more than the given fuel. -/
def Runs (N : Nat) (r : R) (s s' : Reader) : Prop := ∃ n ≤ N, r.run grammar n s = some s'

namespace Runs

variable {N : Nat} {a b r : R} {s s' : Reader}

theorem step {a : Step} (h : Runs N (.step a) s s') : a.run s = some s' := by
  obtain ⟨n, -, h⟩ := h
  cases n with
  | zero => cases h
  | succ n => exact h

theorem empty (h : Runs N .empty s s') : s' = s := by
  obtain ⟨n, -, h⟩ := h
  cases n <;> cases h
  rfl

theorem part {p : Part} (h : Runs N (.part p) s s') : ∃ M < N, Runs M (grammar p) s s' := by
  obtain ⟨n, hn, h⟩ := h
  cases n with
  | zero => cases h
  | succ n => exact ⟨n, hn, n, Nat.le_refl n, h⟩

theorem seq (h : Runs N (a ++ b) s s') : ∃ t, Runs N a s t ∧ Runs N b t s' := by
  obtain ⟨n, hn, h⟩ := h
  cases n with
  | zero => cases h
  | succ n =>
    change run grammar (n + 1) (.seq a b) s = some s' at h
    simp only [run] at h
    split at h
    · rename_i t ht
      exact ⟨t, ⟨n, by omega, ht⟩, n, by omega, h⟩
    · cases h

theorem orElse (h : Runs N (a <|> b) s s') : Runs N a s s' ∨ Runs N b s s' := by
  obtain ⟨n, hn, h⟩ := h
  cases n with
  | zero => cases h
  | succ n =>
    change run grammar (n + 1) (.alt a b) s = some s' at h
    simp only [run] at h
    split at h
    · rename_i t ht
      cases h
      exact .inl ⟨n, by omega, ht⟩
    · exact .inr ⟨n, by omega, h⟩

theorem opt (h : Runs N (opt a) s s') : Runs N a s s' ∨ s' = s :=
  (orElse (b := .empty) h).imp_right Runs.empty

theorem anyOf {rs : List R} (hne : rs ≠ []) (h : Runs N (anyOf rs) s s') : ∃ r ∈ rs, Runs N r s s' := by
  fun_induction Rule.anyOf rs with
  | case1 => exact (hne rfl).elim
  | case2 r => exact ⟨r, by simp, h⟩
  | case3 r rs hrs ih =>
    rcases orElse (b := Rule.anyOf rs) h with h | h
    · exact ⟨r, by simp, h⟩
    · obtain ⟨r', hr', h⟩ := ih hrs h
      exact ⟨r', List.mem_cons_of_mem _ hr', h⟩

theorem many (h : Runs N (many a) s s') :
    s' = s ∨ ∃ t, Runs N a s t ∧ (s' = t ∨ Runs N (.many a) t s') := by
  obtain ⟨n, hn, h⟩ := h
  cases n with
  | zero => cases h
  | succ n =>
    simp only [run] at h
    split at h
    · rename_i t ht
      refine .inr ⟨t, ⟨n, by omega, ht⟩, ?_⟩
      split at h
      · exact .inr ⟨n, by omega, h⟩
      · cases h
        exact .inl rfl
    · cases h
      exact .inl rfl

/-- What one reading keeps, as many in a row keep. -/
theorem many_keeps {P : Reader → Prop} (ha : ∀ t t', P t → Runs N a t t' → P t') (hs : P s)
    (h : Runs N (.many a) s s') : P s' := by
  obtain ⟨n, hn, h⟩ := h
  induction n generalizing s with
  | zero => cases h
  | succ n ih =>
    simp only [run] at h
    split at h
    · rename_i t ht
      have hstep := ha s t hs ⟨n, by omega, ht⟩
      split at h
      · exact ih hstep (by omega) h
      · cases h
        exact hstep
    · cases h
      exact hs

theorem present (h : Runs N (present a) s s') : s' = s ∧ ∃ t, Runs N a s t := by
  obtain ⟨n, hn, h⟩ := h
  cases n with
  | zero => cases h
  | succ n =>
    simp only [run] at h
    split at h
    · rename_i hsome
      obtain ⟨t, ht⟩ := Option.isSome_iff_exists.1 hsome
      cases h
      exact ⟨rfl, t, n, by omega, ht⟩
    · cases h

theorem absent (h : Runs N (absent a) s s') : s' = s := by
  obtain ⟨n, hn, h⟩ := h
  cases n with
  | zero => cases h
  | succ n =>
    simp only [run] at h
    split at h
    · cases h
    · cases h
      rfl

/-- A node is read between an opening and an end. -/
theorem node {k : Kind} (h : Runs N (node k a) s s') :
    ∃ t u, s.settle {} = some t ∧ Runs N a t.opened u ∧ (Step.finish k).run u = some s' := by
  obtain ⟨u, h, hend⟩ := seq h
  obtain ⟨v, h, ha⟩ := seq h
  obtain ⟨t, hgap, hopening⟩ := seq h
  cases hopening.step
  exact ⟨t, u, hgap.step, ha, hend.step⟩

/-- What all steps of a rule keep, and all parts that are read with less fuel, the rule keeps. -/
theorem keeps {P : Reader → Prop} {q : Step → Prop}
    (hsteps : ∀ a s s', q a → P s → a.run s = some s' → P s')
    (hparts : ∀ M < N, ∀ p s s', P s → Runs M (grammar p) s s' → P s') (hr : r.Each q) (hs : P s)
    (h : Runs N r s s') : P s' := by
  obtain ⟨n, hn, h⟩ := h
  refine run_keeps_of_parts hsteps ?_ hn hr hs h
  intro m hm p t t' ht hp
  exact hparts m hm p t t' ht ⟨m, Nat.le_refl m, hp⟩

end Runs

/-- With the given fuel, the rule keeps what holds of a reader. -/
def Preserves (P : Reader → Prop) (N : Nat) (r : R) : Prop := ∀ s s', P s → Runs N r s s' → P s'

section Preserves

variable {P : Reader → Prop} {N : Nat} {a b : R}

theorem preserves_step {x : Step} (h : ∀ s s', P s → x.run s = some s' → P s') : Preserves P N (.step x) :=
  fun s s' hs hrun => h s s' hs hrun.step

theorem Preserves.seq (ha : Preserves P N a) (hb : Preserves P N b) : Preserves P N (a ++ b) := by
  intro s s' hs h
  obtain ⟨t, hat, hbt⟩ := h.seq
  exact hb t s' (ha s t hs hat) hbt

theorem Preserves.orElse (ha : Preserves P N a) (hb : Preserves P N b) : Preserves P N (a <|> b) := by
  intro s s' hs h
  rcases h.orElse with h | h
  · exact ha s s' hs h
  · exact hb s s' hs h

theorem Preserves.opt (ha : Preserves P N a) : Preserves P N (opt a) := by
  intro s s' hs h
  rcases h.opt with h | rfl
  · exact ha s s' hs h
  · exact hs

theorem Preserves.many (ha : Preserves P N a) : Preserves P N (many a) := by
  intro s s' hs h
  exact h.many_keeps ha hs

theorem Preserves.anyOf {rs : List R} (hne : rs ≠ []) (h : ∀ r ∈ rs, Preserves P N r) :
    Preserves P N (anyOf rs) := by
  intro s s' hs hrun
  obtain ⟨r, hr, hrun⟩ := hrun.anyOf hne
  exact h r hr s s' hs hrun

theorem preserves_absent : Preserves P N (absent a) := by
  intro s s' hs h
  rw [h.absent]
  exact hs

end Preserves

theorem each_trivial (r : R) : r.Each fun _ => True := by
  induction r with
  | empty | step | part | present | absent => trivial
  | seq a b iha ihb | alt a b iha ihb => exact ⟨iha, ihb⟩
  | many a ih => exact ih

/-- Whatever is read, it is read behind the tokens that are there. -/
theorem Runs.grows {N : Nat} {r : R} {s s' : Reader} (h : Runs N r s s') :
    Tree.tokensOf s.trees <+: Tree.tokensOf s'.trees := by
  obtain ⟨n, -, h⟩ := h
  have hstep (a : Step) (t t' : Reader) (_ : True)
      (ht : Tree.tokensOf s.trees <+: Tree.tokensOf t.trees) (ha : a.run t = some t') :
      Tree.tokensOf s.trees <+: Tree.tokensOf t'.trees := ht.trans (Step.grows ha)
  exact run_keeps hstep (fun p => each_trivial (grammar p)) (each_trivial r) (List.prefix_refl _) h

/-- The rule changes nothing that was read before it. -/
structure Adds (r : R) (least : Int) : Prop where
  bounds : r.bounds Grammar.gain [0] = some [least]
  keeps : r.keepsFloor Grammar.gain Grammar.need [0] = true

/-- What such a rule reads is put on top of the trees that are there. -/
theorem Adds.items {r : R} {least : Int} (hr : Adds r least) {N : Nat} {s s' : Reader}
    (h : Runs N r s s') :
    ∃ new, s'.items = new ++ s.items ∧ s'.outer = s.outer ∧ least ≤ Tree.solid new := by
  obtain ⟨n, -, h⟩ := h
  have hstart : Above s.items s.outer [0] s.items s.outer := ⟨⟨[], rfl, Int.le_refl 0⟩, rfl⟩
  obtain ⟨⟨new, hnew, hleast⟩, houter⟩ :=
    run_above Grammar.part_bounds_need Grammar.part_keepsFloor hr.bounds hr.keeps h hstart
  exact ⟨new, hnew, houter, hleast⟩

/-- A node that is read is one tree on top, above comments. -/
theorem Runs.node_items {N : Nat} {k : Kind} {a : R} {least : Int} (ha : Adds a least) {s s' : Reader}
    (h : Runs N (Rule.node k a) s s') :
    ∃ t ts, s.settle {} = some t ∧ s'.items = .node k ts :: t.items ∧ s'.outer = s.outer ∧
      ∃ u, Runs N a t.opened u ∧ u.items = ts.reverse := by
  obtain ⟨t, u, ht, hrun, hend⟩ := h.node
  obtain ⟨new, hitems, houter, -⟩ := ha.items hrun
  rw [Reader.opened_outer] at houter
  simp only [Step.run, houter] at hend
  cases hend
  exact ⟨t, u.items.reverse, ht, rfl, (Reader.notes_settle ht).outer, u, hrun, by simp⟩

end Rule

end ServerSplit.Js
