import ServerSplit.Js.Statement
import ServerSplit.Proofs.Js.Fullness
import ServerSplit.Proofs.Text.Weave

/-! Where the trees of a source stand. A tree takes the bytes from its first token to its last, trees side
by side do not overlap, and a function inside another takes fewer bytes than that one. -/
namespace ServerSplit.Js

/-- The blanks before a row of tokens. -/
def blankBefore : List Token → Text
  | [] => []
  | t :: _ => t.before

namespace Tree

/-- A tree without empty nodes whose tokens stand in a row from byte `n` on. -/
def Placed (n : Nat) (t : Tree) : Prop := Full t ∧ InRow n t.tokens

def PlacedAll (n : Nat) (ts : List Tree) : Prop := FullAll ts ∧ InRow n (tokensOf ts)

/-- The blanks before a tree. -/
def lead (t : Tree) : Text := blankBefore t.tokens

theorem spell_tokens (t : Tree) : spell t.tokens = t.lead ++ t.text := by
  unfold lead text
  cases t.tokens with
  | nil => rfl
  | cons u us => simp [blankBefore, spell]

theorem Full.ne_nil {k : Kind} {ts : List Tree} (h : Full (.node k ts)) : ts ≠ [] := by
  rintro rfl
  have := k.least_pos
  have := h.1
  simp at this
  omega

theorem Placed.children {n : Nat} {k : Kind} {ts : List Tree} (h : Placed n (.node k ts)) :
    PlacedAll n ts := ⟨h.1.2, h.2⟩

/-! ### The first token and the last -/

mutual

theorem Full.tokens_ne_nil {t : Tree} (h : Full t) : t.tokens ≠ [] := by
  cases t with
  | leaf t => simp [tokens]
  | node k ts => exact FullAll.tokens_ne_nil h.2 h.ne_nil

theorem FullAll.tokens_ne_nil {ts : List Tree} (h : FullAll ts) (hne : ts ≠ []) :
    tokensOf ts ≠ [] := by
  cases ts with
  | nil => exact (hne rfl).elim
  | cons t ts => simp [tokensOf, Full.tokens_ne_nil h.1]

end

mutual

theorem Placed.start_eq {n : Nat} {t : Tree} (h : Placed n t) : t.start = n + t.lead.size := by
  cases t with
  | leaf t => exact h.2.1
  | node k ts => exact PlacedAll.startOf_eq h.children h.1.ne_nil

theorem PlacedAll.startOf_eq {n : Nat} {ts : List Tree} (h : PlacedAll n ts) (hne : ts ≠ []) :
    startOf ts = n + (blankBefore (tokensOf ts)).size := by
  cases ts with
  | nil => exact (hne rfl).elim
  | cons t ts =>
    have ht : Placed n t := ⟨h.1.1, (inRow_append.1 h.2).1⟩
    have hlead : blankBefore (tokensOf (t :: ts)) = t.lead := by
      rw [lead, tokensOf]
      cases hts : t.tokens with
      | nil => exact (ht.1.tokens_ne_nil hts).elim
      | cons u us => rfl
    rw [hlead]
    exact Placed.start_eq ht

end

mutual

theorem Placed.stop_eq {n : Nat} {t : Tree} (h : Placed n t) :
    t.stop = n + (spell t.tokens).size := by
  cases t with
  | leaf t =>
    have := h.2.1
    simp only [stop, tokens, Token.stop, spell_cons, spell_nil, List.append_nil, Text.size_append]
    omega
  | node k ts => exact PlacedAll.stopOf_eq h.children h.1.ne_nil

theorem PlacedAll.stopOf_eq {n : Nat} {ts : List Tree} (h : PlacedAll n ts) (hne : ts ≠ []) :
    stopOf ts = n + (spell (tokensOf ts)).size := by
  match ts with
  | [] => exact (hne rfl).elim
  | [t] =>
    rw [tokensOf_singleton]
    exact Placed.stop_eq ⟨h.1.1, by simpa [tokensOf] using h.2⟩
  | t :: u :: ts =>
    have hrest : PlacedAll (n + (spell t.tokens).size) (u :: ts) := ⟨h.1.2, (inRow_append.1 h.2).2⟩
    rw [tokensOf, spell_append, Text.size_append, ← Nat.add_assoc]
    exact PlacedAll.stopOf_eq hrest (by simp)

end

/-- A tree starts behind the blanks before it, and it ends behind its text. -/
theorem Placed.stop_eq_start {n : Nat} {t : Tree} (h : Placed n t) :
    t.stop = t.start + t.text.size := by
  rw [h.stop_eq, h.start_eq, spell_tokens, Text.size_append, Nat.add_assoc]

theorem Placed.le_start {n : Nat} {t : Tree} (h : Placed n t) : n ≤ t.start := by
  rw [h.start_eq]
  exact Nat.le_add_right _ _

theorem Placed.text_ne_nil {n : Nat} {t : Tree} (h : Placed n t) : t.text ≠ [] := by
  obtain ⟨hf, hrow⟩ := h
  unfold text
  cases ht : t.tokens with
  | nil => exact (hf.tokens_ne_nil ht).elim
  | cons u us =>
    rw [ht] at hrow
    simp [hrow.2.1]

theorem Placed.start_lt_stop {n : Nat} {t : Tree} (h : Placed n t) : t.start < t.stop := by
  have := Text.size_pos h.text_ne_nil
  rw [h.stop_eq_start]
  omega

theorem placedAll_cons {n : Nat} {t : Tree} {ts : List Tree} (h : PlacedAll n (t :: ts)) :
    Placed n t ∧ PlacedAll t.stop ts := by
  obtain ⟨⟨hf, hfs⟩, hrow⟩ := h
  obtain ⟨hr, hrs⟩ := inRow_append.1 hrow
  have ht : Placed n t := ⟨hf, hr⟩
  exact ⟨ht, hfs, ht.stop_eq ▸ hrs⟩

/-! ### Trees inside a tree -/

/-- The tree `t` is `u` or holds it at some depth. -/
inductive Holds : Tree → Tree → Prop
  | refl (t : Tree) : Holds t t
  | child {k : Kind} {ts : List Tree} {t u : Tree} (ht : t ∈ ts) (h : Holds t u) : Holds (.node k ts) u

theorem Holds.trans {t u v : Tree} (h : Holds t u) (h' : Holds u v) : Holds t v := by
  induction h with
  | refl => exact h'
  | child ht _ ih => exact .child ht (ih h')

mutual

theorem mem_collect {p : Tree → Bool} {t u : Tree} : u ∈ t.collect p ↔ Holds t u ∧ p u = true := by
  cases t with
  | leaf t =>
    simp only [collect]
    constructor
    · intro h
      split at h
      · rename_i hp
        rw [List.mem_singleton.1 h]
        exact ⟨.refl _, hp⟩
      · cases h
    · rintro ⟨h, hp⟩
      cases h
      simp [hp]
  | node k ts =>
    have hts : u ∈ collectOf p ts ↔ ∃ t ∈ ts, Holds t u ∧ p u = true := mem_collectOf
    have hbelow : u ∈ (node k ts).collect p ↔
        (u = node k ts ∧ p u = true) ∨ u ∈ collectOf p ts := by
      simp only [collect]
      split
      · rename_i hp
        rw [List.mem_cons]
        exact or_congr_left ⟨fun h => ⟨h, h ▸ hp⟩, And.left⟩
      · rename_i hp
        exact ⟨.inr, fun h => h.resolve_left fun h => hp (h.1 ▸ h.2)⟩
    rw [hbelow, hts]
    constructor
    · rintro (⟨rfl, hp⟩ | ⟨t, ht, h, hp⟩)
      · exact ⟨.refl _, hp⟩
      · exact ⟨.child ht h, hp⟩
    · rintro ⟨h, hp⟩
      cases h with
      | refl => exact .inl ⟨rfl, hp⟩
      | child ht h => exact .inr ⟨_, ht, h, hp⟩

theorem mem_collectOf {p : Tree → Bool} {ts : List Tree} {u : Tree} :
    u ∈ collectOf p ts ↔ ∃ t ∈ ts, Holds t u ∧ p u = true := by
  cases ts with
  | nil => simp [collectOf]
  | cons t ts =>
    rw [collectOf, List.mem_append, mem_collect, mem_collectOf]
    simp

end

theorem mem_tokensOf {ts : List Tree} {t : Tree} (h : t ∈ ts) :
    ∃ xs ys, tokensOf ts = xs ++ (t.tokens ++ ys) := by
  obtain ⟨as, bs, rfl⟩ := List.append_of_mem h
  exact ⟨tokensOf as, tokensOf bs, by simp [tokensOf]⟩

theorem Holds.tokens {t u : Tree} (h : Holds t u) :
    ∃ xs ys, t.tokens = xs ++ (u.tokens ++ ys) := by
  induction h with
  | refl t => exact ⟨[], [], by simp⟩
  | child ht _ ih =>
    obtain ⟨xs, ys, h⟩ := mem_tokensOf ht
    obtain ⟨xs', ys', h'⟩ := ih
    exact ⟨xs ++ xs', ys' ++ ys, by rw [Tree.tokens, h, h']; simp⟩

theorem Holds.full {t u : Tree} (h : Holds t u) (hf : Full t) : Full u := by
  induction h with
  | refl t => exact hf
  | child ht _ ih => exact ih (fullAll_iff.1 hf.2 _ ht)

/-- A tree of a placed tree is placed itself. -/
theorem Placed.holds {n : Nat} {t u : Tree} (h : Placed n t) (hu : Holds t u) :
    ∃ m, n ≤ m ∧ Placed m u := by
  obtain ⟨xs, ys, he⟩ := hu.tokens
  have hrow := h.2
  rw [he, inRow_append, inRow_append] at hrow
  exact ⟨_, Nat.le_add_right _ _, hu.full h.1, hrow.2.1⟩

/-- `b` lies inside `a` and takes fewer bytes. -/
def Inside (a b : Tree) : Prop :=
  a.start ≤ b.start ∧ b.stop ≤ a.stop ∧ (a.start < b.start ∨ b.stop < a.stop)

/-- `a` stands in front of `b`, or holds it. -/
def Precedes (a b : Tree) : Prop := a.stop ≤ b.start ∨ Inside a b

private theorem spell_pos {n : Nat} {ts : List Token} (h : InRow n ts) (hne : ts ≠ []) :
    0 < (spell ts).size := by
  cases ts with
  | nil => exact (hne rfl).elim
  | cons t ts =>
    have := Text.size_pos h.2.1
    rw [spell_cons, Text.size_append, Text.size_append]
    omega

/-- A tree whose tokens are in the midst of those of `t` starts no earlier and ends no later. -/
theorem Placed.around {n : Nat} {t u : Tree} {xs ys : List Token} (h : Placed n t) (hf : Full u)
    (he : t.tokens = xs ++ (u.tokens ++ ys)) :
    (if xs = [] then t.start = u.start else t.start < u.start) ∧
      (if ys = [] then u.stop = t.stop else u.stop < t.stop) := by
  have hrow := h.2
  rw [he, inRow_append, inRow_append] at hrow
  obtain ⟨hxs, hu, hys⟩ := hrow
  have hu : Placed (n + (spell xs).size) u := ⟨hf, hu⟩
  constructor
  · rw [h.start_eq, hu.start_eq, lead, lead, he]
    cases xs with
    | nil =>
      cases hts : u.tokens with
      | nil => exact (hf.tokens_ne_nil hts).elim
      | cons v vs => simp [blankBefore]
    | cons x xs =>
      have := Text.size_pos hxs.2.1
      simp only [List.cons_append, blankBefore, spell_cons, Text.size_append]
      simp only [reduceCtorEq, if_false]
      omega
  · rw [h.stop_eq, hu.stop_eq, he]
    split
    · rename_i hnil
      subst hnil
      simp [Nat.add_assoc]
    · rename_i hne
      have := spell_pos hys hne
      simp only [spell_append, Text.size_append]
      omega

theorem Placed.bounds {n : Nat} {t u : Tree} (h : Placed n t) (hu : Holds t u) :
    t.start ≤ u.start ∧ u.start < u.stop ∧ u.stop ≤ t.stop := by
  obtain ⟨xs, ys, he⟩ := hu.tokens
  obtain ⟨hstart, hstop⟩ := h.around (hu.full h.1) he
  obtain ⟨m, _, hm⟩ := h.holds hu
  refine ⟨?_, hm.start_lt_stop, ?_⟩
  · split at hstart <;> omega
  · split at hstop <;> omega

/-- What a function holds lies strictly inside it. -/
theorem Placed.inside {n : Nat} {k : Kind} {ts : List Tree} {t u : Tree}
    (h : Placed n (.node k ts)) (hk : 2 ≤ k.least) (ht : t ∈ ts) (hu : Holds t u) :
    Inside (.node k ts) u := by
  obtain ⟨as, bs, rfl⟩ := List.append_of_mem ht
  obtain ⟨xs, ys, he⟩ := hu.tokens
  have hf : Full u := (Holds.child ht hu).full h.1
  have htokens : (node k (as ++ t :: bs)).tokens =
      (tokensOf as ++ xs) ++ (u.tokens ++ (ys ++ tokensOf bs)) := by
    simp [tokens, tokensOf, he]
  obtain ⟨hstart, hstop⟩ := h.around hf htokens
  have hsides : tokensOf as ≠ [] ∨ tokensOf bs ≠ [] := by
    have hall := h.1.2
    rw [fullAll_append] at hall
    by_cases has : as = []
    · right
      refine hall.2.2.tokens_ne_nil fun hbs => ?_
      have := h.1.1
      subst has hbs
      simp only [List.nil_append, solid_cons, solid_nil] at this
      split at this <;> omega
    · exact .inl (hall.1.tokens_ne_nil has)
  have hbounds := h.bounds (.child ht hu)
  refine ⟨hbounds.1, hbounds.2.2, ?_⟩
  rcases hsides with hs | hs
  · left
    rwa [if_neg (by simp [hs])] at hstart
  · right
    rwa [if_neg (by simp [hs])] at hstop

/-- What is found in a function lies strictly inside it. -/
theorem Placed.inside_function {n : Nat} {k : Kind} {ts : List Tree} {p : Tree → Bool} {u : Tree}
    (h : Placed n (.node k ts)) (hk : (Tree.node k ts).isFunction = true) (hu : u ∈ collectOf p ts) :
    Inside (.node k ts) u := by
  obtain ⟨t, ht, hu, _⟩ := mem_collectOf.1 hu
  refine h.inside ?_ ht hu
  cases k <;> simp_all [isFunction, functionKind?, Kind.least]

theorem PlacedAll.placed_of_mem {n : Nat} {ts : List Tree} {t : Tree} (h : PlacedAll n ts) (ht : t ∈ ts) :
    ∃ m, n ≤ m ∧ Placed m t := by
  obtain ⟨as, bs, rfl⟩ := List.append_of_mem ht
  obtain ⟨hf, hrow⟩ := h
  rw [tokensOf_append, tokensOf, inRow_append, inRow_append] at hrow
  exact ⟨_, Nat.le_add_right _ _, (fullAll_append.1 hf).2.1, hrow.2.1⟩

theorem PlacedAll.le_start {n : Nat} {ts : List Tree} {t u : Tree} (h : PlacedAll n ts) (ht : t ∈ ts)
    (hu : Holds t u) : n ≤ u.start := by
  obtain ⟨m, hm, hplaced⟩ := h.placed_of_mem ht
  obtain ⟨m', hm', hplaced'⟩ := hplaced.holds hu
  have := hplaced'.le_start
  omega

/-- Trees side by side do not overlap. -/
theorem PlacedAll.apart {n : Nat} {ts : List Tree} {t u : Tree} (h : PlacedAll n ts) (ht : t ∈ ts) (hu : u ∈ ts) :
    t = u ∨ t.stop ≤ u.start ∨ u.stop ≤ t.start := by
  induction ts generalizing n with
  | nil => cases ht
  | cons v ts ih =>
    obtain ⟨-, hts⟩ := placedAll_cons h
    rcases List.mem_cons.1 ht with rfl | ht' <;> rcases List.mem_cons.1 hu with rfl | hu'
    · exact .inl rfl
    · exact .inr (.inl (hts.le_start hu' (.refl u)))
    · exact .inr (.inr (hts.le_start ht' (.refl t)))
    · exact ih hts ht' hu'

mutual

/-- Of two functions, the one that is found first stands in front of the other or holds it. -/
theorem Placed.functions_pairwise {n : Nat} {t : Tree} (h : Placed n t) :
    (t.collect isFunction).Pairwise Precedes := by
  cases t with
  | leaf t => simp [collect, isFunction, functionKind?]
  | node k ts =>
    unfold collect
    split
    · rename_i hk
      exact List.pairwise_cons.2 ⟨fun u hu => .inr (h.inside_function hk hu),
        PlacedAll.functions_pairwise h.children⟩
    · exact PlacedAll.functions_pairwise h.children

theorem PlacedAll.functions_pairwise {n : Nat} {ts : List Tree} (h : PlacedAll n ts) :
    (collectOf isFunction ts).Pairwise Precedes := by
  cases ts with
  | nil => exact .nil
  | cons t ts =>
    obtain ⟨ht, hts⟩ := placedAll_cons h
    refine List.pairwise_append.2 ⟨Placed.functions_pairwise ht, PlacedAll.functions_pairwise hts,
      fun a ha b hb => .inl ?_⟩
    obtain ⟨u, hu, hb, _⟩ := mem_collectOf.1 hb
    exact Nat.le_trans (ht.bounds (mem_collect.1 ha).1).2.2 (hts.le_start hu hb)

end

/-! ### Outermost trees -/

mutual

/-- The trees with the given property that are inside no other one with it. -/
def outermost (p : Tree → Bool) : Tree → List Tree
  | .leaf t => if p (.leaf t) then [.leaf t] else []
  | .node k ts => if p (.node k ts) then [.node k ts] else outermostOf p ts

def outermostOf (p : Tree → Bool) : List Tree → List Tree
  | [] => []
  | t :: ts => outermost p t ++ outermostOf p ts

end

/-- The bytes that a tree takes. -/
def span (t : Tree) : Nat × Nat := (t.start, t.stop)

mutual

theorem holds_of_outermost {p : Tree → Bool} {t u : Tree} (h : u ∈ t.outermost p) :
    Holds t u ∧ p u = true := by
  cases t with
  | leaf t =>
    unfold outermost at h
    split at h
    · rename_i hp
      rw [List.mem_singleton.1 h]
      exact ⟨.refl _, hp⟩
    · cases h
  | node k ts =>
    unfold outermost at h
    split at h
    · rename_i hp
      rw [List.mem_singleton.1 h]
      exact ⟨.refl _, hp⟩
    · obtain ⟨t, ht, hu, hp⟩ := holds_of_outermostOf h
      exact ⟨.child ht hu, hp⟩

theorem holds_of_outermostOf {p : Tree → Bool} {ts : List Tree} {u : Tree} (h : u ∈ outermostOf p ts) :
    ∃ t ∈ ts, Holds t u ∧ p u = true := by
  cases ts with
  | nil => cases h
  | cons t ts =>
    rw [outermostOf, List.mem_append] at h
    rcases h with h | h
    · exact ⟨t, by simp, holds_of_outermost h⟩
    · obtain ⟨v, hv, hu⟩ := holds_of_outermostOf h
      exact ⟨v, by simp [hv], hu⟩

end

mutual

/-- Outermost trees do not overlap. -/
theorem Placed.outermost_apart {n : Nat} {p : Tree → Bool} {t : Tree} (h : Placed n t) :
    Text.Apart n ((t.outermost p).map span) := by
  cases t with
  | leaf t =>
    unfold outermost
    split
    · exact ⟨h.le_start, h.start_lt_stop, trivial⟩
    · trivial
  | node k ts =>
    unfold outermost
    split
    · exact ⟨h.le_start, h.start_lt_stop, trivial⟩
    · exact PlacedAll.outermostOf_apart h.children

theorem PlacedAll.outermostOf_apart {n : Nat} {p : Tree → Bool} {ts : List Tree} (h : PlacedAll n ts) :
    Text.Apart n ((outermostOf p ts).map span) := by
  cases ts with
  | nil => trivial
  | cons t ts =>
    obtain ⟨ht, hts⟩ := placedAll_cons h
    rw [outermostOf, List.map_append]
    refine (Placed.outermost_apart ht).append (PlacedAll.outermostOf_apart hts) ?_ ?_
    · exact Nat.le_of_lt (Nat.lt_of_le_of_lt ht.le_start ht.start_lt_stop)
    · exact List.forall_mem_map.2 fun u hu => (ht.bounds (holds_of_outermost hu).1).2.2

end

/-- Trees that stand one behind the other are not inside one another. -/
theorem not_inside_of_le {a b : Tree} (ha : a.start < a.stop) (hb : b.start < b.stop)
    (hab : a.stop ≤ b.start) : ¬ Inside a b ∧ ¬ Inside b a := by
  constructor
  · rintro ⟨_, hstop, _⟩
    omega
  · rintro ⟨hstart, _⟩
    omega

mutual

/-- The outermost functions with a property are those that are inside no other one with it. -/
theorem Placed.mem_outermost_iff {n : Nat} {p : Tree → Bool} {t f : Tree}
    (hp : ∀ u, p u = true → u.isFunction = true) (h : Placed n t) :
    f ∈ t.outermost p ↔ f ∈ t.collect p ∧ ∀ g ∈ t.collect p, ¬ Inside g f := by
  cases t with
  | leaf t =>
    have hnot : p (.leaf t) = false := Bool.eq_false_iff.2 fun ht => by cases hp _ ht
    simp [outermost, collect, hnot]
  | node k ts =>
    unfold outermost collect
    split
    · rename_i hk
      have hinside : ∀ u ∈ collectOf p ts, Inside (.node k ts) u := fun u hu =>
        h.inside_function (hp _ hk) hu
      constructor
      · intro hf
        obtain rfl := List.mem_singleton.1 hf
        refine ⟨by simp, fun g hg hgf => ?_⟩
        rcases List.mem_cons.1 hg with rfl | hg
        · exact absurd hgf.2.2 (by omega)
        · have := hinside g hg
          simp only [Inside] at this hgf
          omega
      · rintro ⟨hf, hnone⟩
        rcases List.mem_cons.1 hf with rfl | hf
        · exact List.mem_singleton_self _
        · exact (hnone _ List.mem_cons_self (hinside f hf)).elim
    · exact PlacedAll.mem_outermostOf_iff hp h.children

theorem PlacedAll.mem_outermostOf_iff {n : Nat} {p : Tree → Bool} {ts : List Tree} {f : Tree}
    (hp : ∀ u, p u = true → u.isFunction = true) (h : PlacedAll n ts) :
    f ∈ outermostOf p ts ↔ f ∈ collectOf p ts ∧ ∀ g ∈ collectOf p ts, ¬ Inside g f := by
  cases ts with
  | nil => simp [outermostOf, collectOf]
  | cons t ts =>
    obtain ⟨ht, hts⟩ := placedAll_cons h
    have hapart : ∀ u ∈ t.collect p, ∀ v ∈ collectOf p ts, ¬ Inside u v ∧ ¬ Inside v u := by
      intro u hu v hv
      have hbounds := ht.bounds (mem_collect.1 hu).1
      obtain ⟨t', ht', hv, _⟩ := mem_collectOf.1 hv
      obtain ⟨m, _, hplaced⟩ := hts.placed_of_mem ht'
      have hle := hts.le_start ht' hv
      exact not_inside_of_le hbounds.2.1 (hplaced.bounds hv).2.1 (by omega)
    rw [outermostOf, collectOf, List.mem_append, Placed.mem_outermost_iff hp ht,
      PlacedAll.mem_outermostOf_iff hp hts, List.mem_append, List.forall_mem_append]
    constructor
    · rintro (⟨hf, hnone⟩ | ⟨hf, hnone⟩)
      · exact ⟨.inl hf, hnone, fun g hg => (hapart f hf g hg).2⟩
      · exact ⟨.inr hf, fun g hg => (hapart g hg f hf).1, hnone⟩
    · rintro ⟨hf | hf, hnone, hnone'⟩
      · exact .inl ⟨hf, hnone⟩
      · exact .inr ⟨hf, hnone'⟩

end

end Tree

open Js.Tree

/-- The trees of a source stand in a row in it, with blanks behind them. -/
theorem parse_placed {t : Text} {tree : Tree} (h : parse t = some tree) :
    ∃ ts b, tree = .node .program ts ∧ PlacedAll 0 ts ∧ t = spell (tokensOf ts) ++ b := by
  obtain ⟨ts, rfl, hfull⟩ := parse_full h
  obtain ⟨⟨b, hb⟩, hrow⟩ := parse_spells h
  exact ⟨ts, b, rfl, ⟨hfull, hrow⟩, hb⟩

/-- The text of a tree is what the source has from its start to its stop. -/
theorem exists_append_of_holds {t b : Text} {ts : List Tree} {u v : Tree} (h : PlacedAll 0 ts)
    (ht : t = spell (tokensOf ts) ++ b) (hu : u ∈ ts) (hv : Holds u v) :
    ∃ a c, t = a ++ (v.text ++ c) ∧ a.size = v.start ∧ v.start + v.text.size = v.stop := by
  obtain ⟨xs, ys, hxs⟩ := mem_tokensOf hu
  obtain ⟨xs', ys', hxs'⟩ := hv.tokens
  have htokens : tokensOf ts = (xs ++ xs') ++ (v.tokens ++ (ys' ++ ys)) := by simp [hxs, hxs']
  have hrow := h.2
  rw [htokens, inRow_append, @inRow_append _ v.tokens] at hrow
  have hplaced : Placed (0 + (spell (xs ++ xs')).size) v :=
    ⟨hv.full (fullAll_iff.1 h.1 u hu), hrow.2.1⟩
  refine ⟨spell (xs ++ xs') ++ v.lead, spell (ys' ++ ys) ++ b, ?_, ?_, hplaced.stop_eq_start.symm⟩
  · rw [ht, htokens, spell_append, spell_append _ (ys' ++ ys), spell_tokens]
    simp
  · rw [Text.size_append, hplaced.start_eq, Nat.zero_add]

end ServerSplit.Js
