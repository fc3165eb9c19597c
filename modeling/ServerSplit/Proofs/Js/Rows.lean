import ServerSplit.Proofs.Js.Every

/-! Statements that are expressions. How many trees the open nodes have and what they begin with is followed
through a rule without a text, as far as it can be told; so the grammar ends such a statement only around the
expression, which no comment stands before, and tokens behind it. -/
namespace ServerSplit.Js

/-- A statement that is an expression begins with it, and all else in it are tokens. -/
def Tree.LeadsAlone : Tree → Prop
  | .node .expressionStatement ts =>
    (∀ t ∈ ts.head?, t.isComment = false) ∧ ∀ t ∈ ts.tail, ∃ u : Token, t = .leaf u
  | _ => True

theorem leadsAlone_of_ne {k : Kind} (hk : k ≠ .expressionStatement) (ts : List Tree) :
    Tree.LeadsAlone (.node k ts) := by
  unfold Tree.LeadsAlone
  split
  · rename_i h
    cases h
    exact (hk rfl).elim
  · trivial

theorem leadsAlone_kept : Kept Tree.LeadsAlone := by
  refine Kept.of_given (fun _ => trivial) (fun k ts hk => leadsAlone_of_ne ?_ ts) (fun _ _ => trivial)
    (fun _ _ => trivial)
  rintro rfl
  cases hk

/-! ### Rows of trees -/

/-- What is known of the trees of an open node. -/
structure Known where
  /-- Their number, comments apart, if it is known. -/
  count : Option Nat
  /-- They do not begin with a comment. -/
  headed : Bool
  /-- None but the first is a node. -/
  simple : Bool
  deriving DecidableEq

namespace Known
open Tree

/-- The trees, last first, are as it says. -/
structure Of (a : Known) (ts : List Tree) : Prop where
  count : ∀ n ∈ a.count, solid ts = n
  headed : a.headed = true → ∀ xs t, ts = xs ++ [t] → t.isComment = false
  simple : a.simple = true → ∀ xs t, ts = xs ++ [t] → ∀ x ∈ xs, ∃ u : Token, x = .leaf u

def nothing : Known := ⟨none, false, false⟩

/-- There are no trees. -/
def fresh : Known := ⟨some 0, true, true⟩

/-- There is one tree, and perhaps there are comments behind it. -/
def single : Known := ⟨some 1, true, true⟩

/-- Comments are put behind the trees. -/
def noted (a : Known) : Known := { a with headed := a.headed && a.count.any (0 < ·) }

/-- A token is put behind them. -/
def pushed (a : Known) (k : Leaf) : Known :=
  if k.weight = 0 then a.noted else { a with count := a.count.map (· + 1) }

/-- A node is put behind them. -/
def noded (a : Known) : Known :=
  { a with count := a.count.map (· + 1), simple := a.headed && decide (a.count = some 0) }

/-- What is known either way. -/
def either (a b : Known) : Known :=
  ⟨if a.count = b.count then a.count else none, a.headed && b.headed, a.simple && b.simple⟩

variable {a b c : Known} {ts us vs : List Tree}

theorem of_nothing (ts : List Tree) : nothing.Of ts where
  count := fun _ hn => (nomatch hn)
  headed := fun h => (nomatch h)
  simple := fun h => (nomatch h)

theorem fresh_of : fresh.Of [] where
  count := by rintro _ ⟨⟩; rfl
  headed := fun _ xs t h => by simp at h
  simple := fun _ xs t h => by simp at h

theorem Of.either (h : a.Of ts) (b : Known) : (a.either b).Of ts where
  count := by
    intro n hn
    simp only [Known.either, Option.mem_def] at hn
    split at hn
    · exact h.count n hn
    · cases hn
  headed := fun hab => h.headed (Bool.and_eq_true_iff.1 hab).1
  simple := fun hab => h.simple (Bool.and_eq_true_iff.1 hab).1

/-- Another tree is put behind the trees. -/
theorem Of.cons (h : a.Of ts) {t : Tree} (hcount : ∀ n ∈ b.count, solid (t :: ts) = n)
    (hheaded : b.headed = true → a.headed = true ∧ (ts = [] → t.isComment = false))
    (hsimple : b.simple = true → ts ≠ [] → a.simple = true ∧ ∃ u : Token, t = .leaf u) : b.Of (t :: ts) where
  count := hcount
  headed := by
    intro hb xs u he
    obtain ⟨ha, hfirst⟩ := hheaded hb
    cases xs with
    | nil =>
      obtain ⟨rfl, rfl⟩ := List.cons.inj he
      exact hfirst rfl
    | cons x xs => exact h.headed ha xs u (List.cons.inj he).2
  simple := by
    intro hb xs u he
    cases xs with
    | nil => simp
    | cons x xs =>
      obtain ⟨rfl, rfl⟩ := List.cons.inj he
      obtain ⟨ha, hleaf⟩ := hsimple hb (by simp)
      exact List.forall_mem_cons.2 ⟨hleaf, h.simple ha xs u rfl⟩

theorem Of.noted (h : a.Of ts) {cs : List Tree} (hcs : ∀ c ∈ cs, ∃ t : Token, c = .leaf t ∧ c.isComment = true) :
    a.noted.Of (cs ++ ts) := by
  induction cs with
  | nil => exact ⟨h.count, fun ha => h.headed (Bool.and_eq_true_iff.1 ha).1, h.simple⟩
  | cons c cs ih =>
    obtain ⟨⟨t, hleaf, hcomment⟩, hcs⟩ := List.forall_mem_cons.1 hcs
    refine (ih hcs).cons (fun n hn => ?_) (fun ha => ⟨ha, fun hnil => ?_⟩) fun ha _ => ⟨ha, t, hleaf⟩
    · rw [solid_cons, if_pos hcomment, Nat.zero_add]
      exact (ih hcs).count n hn
    · -- there is a tree before the comments
      obtain ⟨n, hn, hpos⟩ := (Option.any_eq_true ..).1 (Bool.and_eq_true_iff.1 ha).2
      have hsolid := h.count n hn
      rw [(List.append_eq_nil_iff.1 hnil).2] at hsolid
      rw [← hsolid] at hpos
      cases of_decide_eq_true hpos

theorem isComment_leaf (t : Token) : (Tree.leaf t).isComment = decide (t.kind.weight = 0) := by
  obtain ⟨k, _, _, _⟩ := t
  cases k <;> rfl

theorem Of.pushed (h : a.Of ts) (t : Token) : (a.pushed t.kind).Of (.leaf t :: ts) := by
  have hcomment := isComment_leaf t
  unfold Known.pushed
  split
  · rename_i hk
    exact h.noted (List.forall_mem_singleton.2 ⟨t, rfl, by simp [hcomment, hk]⟩)
  · rename_i hk
    have hsolid : (Tree.leaf t).isComment = false := by simp [hcomment, hk]
    refine h.cons (fun n hn => ?_) (fun ha => ⟨ha, fun _ => hsolid⟩) fun ha _ => ⟨ha, t, rfl⟩
    obtain ⟨m, hm, rfl⟩ := Option.map_eq_some_iff.1 hn
    rw [solid_cons, if_neg (by simp [hsolid]), h.count m hm, Nat.add_comm]

theorem Of.eq_nil (h : a.Of ts) (hheaded : a.headed = true) (hcount : a.count = some 0) : ts = [] := by
  rcases List.eq_nil_or_concat ts with hnil | ⟨xs, t, rfl⟩
  · exact hnil
  · have hsolid := h.count 0 hcount
    have ht := h.headed hheaded xs t (List.concat_eq_append ..)
    rw [List.concat_eq_append, solid_append, solid_cons, if_neg (by simp [ht])] at hsolid
    omega

theorem Of.noded (h : a.Of ts) (k : Kind) (us : List Tree) : a.noded.Of (.node k us :: ts) := by
  refine h.cons (fun n hn => ?_) (fun ha => ⟨ha, fun _ => isComment_node k us⟩) fun ha hne => ?_
  · obtain ⟨m, hm, rfl⟩ := Option.map_eq_some_iff.1 hn
    rw [solid_cons, if_neg (by simp [isComment_node]), h.count m hm, Nat.add_comm]
  · simp only [Known.noded, Bool.and_eq_true, decide_eq_true_eq] at ha
    exact (hne (h.eq_nil ha.1 ha.2)).elim

/-- The last `n` trees that are no comments, and comments behind them. -/
def adopted (n : Nat) : Known := ⟨some n, true, decide (n ≤ 1)⟩

/-- The trees before the last `n`. -/
def left (a : Known) (n : Nat) : Known := { a with count := a.count.map (· - n) }

theorem solid_eq_zero (h : solid ts = 0) : ∀ t ∈ ts, ∃ u : Token, t = .leaf u := by
  intro t ht
  have hcomment : t.isComment = true := by simpa [solid] using List.countP_eq_zero.1 h t ht
  cases t with
  | leaf u => exact ⟨u, rfl⟩
  | node k us => cases hcomment

theorem splitLast_first {n : Nat} {xs : List Tree} {t : Tree}
    (h : Reader.splitLast n ts = some (xs ++ [t], vs)) : t.isComment = false := by
  induction ts generalizing n xs with
  | nil => cases n <;> simp [Reader.splitLast] at h
  | cons u ts ih =>
    cases n with
    | zero => simp [Reader.splitLast] at h
    | succ n =>
      obtain ⟨⟨ys, zs⟩, hrest, he⟩ := Option.map_eq_some_iff.1 h
      obtain ⟨hys, rfl⟩ := Prod.mk.inj he
      cases xs with
      | nil =>
        obtain ⟨rfl, rfl⟩ := List.cons.inj hys
        have hsolid : 0 = if u.isComment then n + 1 else n := Reader.splitLast_solid hrest
        cases hcomment : u.isComment with
        | false => rfl
        | true => simp [hcomment] at hsolid
      | cons x xs =>
        obtain ⟨rfl, rfl⟩ := List.cons.inj hys
        exact ih hrest

theorem adopted_of {n : Nat} (h : Reader.splitLast n ts = some (us, vs)) : (adopted n).Of us where
  count := by
    rintro _ ⟨⟩
    exact Reader.splitLast_solid h
  headed := by
    rintro - xs t rfl
    exact splitLast_first h
  simple := by
    rintro hn xs t rfl
    have hsolid := Reader.splitLast_solid h
    rw [solid_append, solid_cons, if_neg (by simp [splitLast_first h]), solid_nil] at hsolid
    have hle : n ≤ 1 := of_decide_eq_true hn
    exact solid_eq_zero (by omega)

theorem Of.left (h : a.Of ts) {n : Nat} (hsplit : Reader.splitLast n ts = some (us, vs)) : (a.left n).Of vs := by
  have hn := Reader.splitLast_solid hsplit
  obtain rfl := Reader.splitLast_append hsplit
  refine ⟨fun m hm => ?_, fun ha xs t he => ?_, fun ha xs t he x hx => ?_⟩
  · obtain ⟨l, hl, rfl⟩ := Option.map_eq_some_iff.1 hm
    have := h.count l hl
    rw [solid_append] at this
    omega
  · exact h.headed ha (us ++ xs) t (by rw [he, List.append_assoc])
  · exact h.simple ha (us ++ xs) t (by rw [he, List.append_assoc]) x (List.mem_append_right us hx)

/-- Recasting one of the trees changes nothing that is known of them. -/
theorem Of.recast {r : Recast} {t u : Tree} (h : a.Of (us ++ t :: vs)) (hu : r.apply t = some u) :
    a.Of (us ++ u :: vs) := by
  have hcomment := (Recast.apply_alike hu).isComment
  have hleaf (ht : ∃ w : Token, t = .leaf w) : ∃ w : Token, u = .leaf w := by
    obtain ⟨w, rfl⟩ := ht
    cases Recast.apply_gives hu
    exact ⟨w, rfl⟩
  have hcount : ∀ n ∈ a.count, solid (us ++ u :: vs) = n := by
    intro n hn
    rw [← h.count n hn, solid_append, solid_append, solid_cons, solid_cons, hcomment]
  rcases List.eq_nil_or_concat' vs with rfl | ⟨ys, y, rfl⟩
  · -- the tree is the first one
    refine ⟨hcount, fun ha xs x he => ?_, fun ha xs x he => ?_⟩ <;>
      obtain ⟨rfl, hx⟩ := List.append_inj' he rfl
    · obtain ⟨rfl, -⟩ := List.cons.inj hx
      rw [hcomment]
      exact h.headed ha us t rfl
    · exact h.simple ha us t rfl
  · have hsplit (w : Tree) : us ++ w :: (ys ++ [y]) = us ++ w :: ys ++ [y] := by simp
    refine ⟨hcount, fun ha xs x he => ?_, fun ha xs x he => ?_⟩ <;>
      obtain ⟨rfl, hx⟩ := List.append_inj' ((hsplit u).symm.trans he) rfl
    · obtain ⟨rfl, -⟩ := List.cons.inj hx
      exact h.headed ha (us ++ t :: ys) y (hsplit t)
    · have hall := h.simple ha (us ++ t :: ys) y (hsplit t)
      obtain ⟨hus, htys⟩ := List.forall_mem_append.1 hall
      obtain ⟨ht, hys⟩ := List.forall_mem_cons.1 htys
      exact List.forall_mem_append.2 ⟨hus, List.forall_mem_cons.2 ⟨hleaf ht, hys⟩⟩

end Known

/-! ### Steps -/

/-- What is known of a reader: whether the gap has been read, and the trees of its open nodes, innermost
first. -/
structure Facts where
  settled : Bool
  rows : List Known
  deriving DecidableEq

namespace Facts

/-- The trees of the open nodes are as `rows` say, and those of the nodes around them are `around`. -/
def Stack (around : List (List Tree)) : List Known → List (List Tree) → Prop
  | [], tss => tss = around
  | a :: as, ts :: tss => a.Of ts ∧ Stack around as tss
  | _ :: _, [] => False

/-- The reader is as the facts say. -/
structure Hold (around : List (List Tree)) (a : Facts) (s : Reader) : Prop where
  settled : a.settled = true → s.settled = true
  stack : Stack around a.rows (s.items :: s.outer)

/-- What is known either way. -/
def either (a b : Facts) : Option Facts :=
  if a.rows.length = b.rows.length then some ⟨a.settled && b.settled, a.rows.zipWith Known.either b.rows⟩
  else none

/-- The facts without those on the innermost node. -/
def loose : Facts → Facts
  | ⟨settled, []⟩ => ⟨settled, []⟩
  | ⟨_, _ :: as⟩ => ⟨false, .nothing :: as⟩

variable {a b c : Facts} {around : List (List Tree)} {s : Reader}

theorem Stack.either {as bs : List Known} {tss : List (List Tree)} (h : Stack around as tss)
    (hlength : as.length = bs.length) : Stack around (as.zipWith Known.either bs) tss := by
  induction as generalizing bs tss with
  | nil => exact h
  | cons a as ih =>
    cases bs with
    | nil => cases hlength
    | cons b bs =>
      cases tss with
      | nil => exact h.elim
      | cons ts tss => exact ⟨h.1.either b, ih h.2 (Nat.succ.inj hlength)⟩

theorem Hold.either (h : a.Hold around s) (hc : a.either b = some c) : c.Hold around s := by
  unfold Facts.either at hc
  split at hc
  · rename_i hlength
    cases hc
    exact ⟨fun hs => h.settled (Bool.and_eq_true_iff.1 hs).1, h.stack.either hlength⟩
  · cases hc

theorem Hold.loose (h : a.Hold around s) : a.loose.Hold around s := by
  obtain ⟨settled, rows⟩ := a
  cases rows with
  | nil => exact h
  | cons a as => exact ⟨fun hs => (nomatch hs), Known.of_nothing s.items, h.stack.2⟩

end Facts

open Facts

/-- What a step makes of what is known; `none` if it may end a statement around more than an expression. -/
def Step.facts (x : Step) : Facts → Option Facts
  | ⟨_, []⟩ => none
  | ⟨settled, a :: as⟩ =>
    let behind := if settled then a else a.noted
    match x with
    | .token k _ => some ⟨false, behind.pushed k :: as⟩
    | .glued k _ => some ⟨false, a.pushed k :: as⟩
    | .comment _ | .insertion _ => some ⟨false, a.noted :: as⟩
    | .gap _ => some ⟨true, behind :: as⟩
    | .closing _ => some ⟨settled, behind :: as⟩
    | .question _ => some ⟨false, a.pushed .mark :: as⟩
    | .opening => some ⟨settled, .fresh :: a :: as⟩
    | .adopt n => some ⟨settled, .adopted n :: a.left n :: as⟩
    | .finish k =>
      match as with
      | [] => none
      | b :: bs =>
        if k = .expressionStatement ∧ ¬ (a.headed ∧ a.simple) then none else some ⟨settled, b.noded :: bs⟩
    | .recast _ | .last _ => some ⟨settled, a :: as⟩

namespace Reader

variable {a : Known} {s t : Reader}

theorem Notes.noted (h : Notes s t) (ha : a.Of s.items) : a.noted.Of t.items ∧ t.outer = s.outer := by
  obtain ⟨⟨cs, hitems, hcs⟩, houter⟩ := h
  exact ⟨hitems ▸ ha.noted hcs, houter⟩

theorem settle_behind {g : Gap} {settled : Bool} (hsettled : settled = true → s.settled = true)
    (ha : a.Of s.items) (h : s.settle g = some t) :
    (if settled then a else a.noted).Of t.items ∧ t.outer = s.outer := by
  cases settled with
  | false => exact (notes_settle h).noted ha
  | true =>
    rw [settle, if_pos (hsettled rfl)] at h
    cases h
    exact ⟨ha, rfl⟩

theorem take_pushed {k : Leaf} {reads : Reads} (ha : a.Of s.items) (h : s.take k reads = some t) :
    (a.pushed k).Of t.items ∧ t.outer = s.outer := by
  obtain ⟨p, -, rfl⟩ := Option.map_eq_some_iff.1 h
  exact ⟨ha.pushed ⟨k, s.blank, p.1, s.offset⟩, rfl⟩

end Reader

open Reader

/-- A row of trees that begins with its only node is that of a statement. -/
theorem leadsAlone_of {a : Known} {ts : List Tree} (h : a.Of ts) (hheaded : a.headed = true)
    (hsimple : a.simple = true) : Tree.LeadsAlone (.node .expressionStatement ts.reverse) := by
  rcases List.eq_nil_or_concat' ts with rfl | ⟨xs, t, rfl⟩
  · exact ⟨by simp, by simp⟩
  · rw [List.reverse_append, List.reverse_singleton, List.singleton_append]
    refine ⟨?_, fun x hx => h.simple hsimple xs t rfl x (List.mem_reverse.1 hx)⟩
    rintro x ⟨⟩
    exact h.headed hheaded xs _ rfl

/-- Every step leaves what it is said to leave, and ends statements around an expression only. -/
theorem Step.hold {x : Step} {a b : Facts} {around : List (List Tree)} {s t : Reader} (hx : x.facts a = some b)
    (ha : a.Hold around s) (hs : s.Every Tree.LeadsAlone) (h : x.run s = some t) :
    b.Hold around t ∧ t.Every Tree.LeadsAlone := by
  obtain ⟨settled, rows⟩ := a
  cases rows with
  | nil => cases hx
  | cons a as =>
    obtain ⟨hsettled, ha, has⟩ := ha
    have keeps (hend : ∀ k, x ≠ .finish k) : t.Every Tree.LeadsAlone :=
      x.every leadsAlone_kept (fun k hk => (hend k hk).elim) h hs
    have unsettled : false = true → t.settled = true := fun hfalse => (Bool.false_ne_true hfalse).elim
    have put {a' : Known} {settled' : Bool} (hitems : a'.Of t.items ∧ t.outer = s.outer)
        (hsettled' : settled' = true → t.settled = true) : (⟨settled', a' :: as⟩ : Facts).Hold around t :=
      ⟨hsettled', hitems.1, hitems.2 ▸ has⟩
    cases x with
    | token k reads =>
      cases hx
      obtain ⟨u, hu, h⟩ := Option.bind_eq_some_iff.1 h
      obtain ⟨hu, houter⟩ := settle_behind hsettled ha hu
      obtain ⟨hitems, houter'⟩ := take_pushed hu h
      exact ⟨put ⟨hitems, houter'.trans houter⟩ unsettled, keeps (by simp)⟩
    | glued k reads =>
      cases hx
      simp only [Step.run] at h
      split at h
      · exact ⟨put (take_pushed ha h) unsettled, keeps (by simp)⟩
      · cases h
    | comment g => cases hx; exact ⟨put ((notes_comment h).noted ha) unsettled, keeps (by simp)⟩
    | gap g =>
      cases hx
      exact ⟨put (settle_behind hsettled ha h) fun _ => settled_of_settle h, keeps (by simp)⟩
    | question semicolon =>
      cases hx
      obtain ⟨passed, rest, w, r, -, -, rfl⟩ := exists_of_question h
      exact ⟨put ⟨ha.pushed ⟨.mark, _, _, _⟩, rfl⟩ unsettled, keeps (by simp)⟩
    | insertion operator => cases hx; exact ⟨put ((notes_insertion h).noted ha) unsettled, keeps (by simp)⟩
    | closing operator =>
      cases hx
      simp only [Step.run, Option.orElse_eq_orElse, Option.orElse_eq_or, Option.or_eq_some_iff] at h
      refine ⟨?_, keeps (by simp)⟩
      rcases h with h | ⟨-, h⟩
      · cases settled with
        | false => exact put ((notes_insertion h).noted ha) unsettled
        | true =>
          rw [Reader.insertion, if_pos (hsettled rfl)] at h
          cases h
      · cases h
        cases settled with
        | false => exact put ((Notes.refl s).noted ha) unsettled
        | true => exact ⟨hsettled, ha, has⟩
    | opening =>
      cases hx
      cases h
      exact ⟨⟨hsettled, Known.fresh_of, ha, has⟩, keeps (by simp)⟩
    | adopt n =>
      cases hx
      obtain ⟨⟨us, vs⟩, hp, hrun⟩ := Option.bind_eq_some_iff.1 h
      cases hrun
      exact ⟨⟨hsettled, Known.adopted_of hp, ha.left hp, has⟩, keeps (by simp)⟩
    | finish k =>
      cases as with
      | nil => cases hx
      | cons b bs =>
        simp only [Step.facts] at hx
        split at hx
        · cases hx
        · rename_i hk
          cases hx
          refine ⟨?_, (Step.finish k).every leadsAlone_kept (fun l hl => ?_) h hs⟩
          · simp only [Step.run] at h
            split at h
            · cases h
            · rename_i ts us houter
              cases h
              rw [houter] at has
              exact ⟨hsettled, has.1.noded k _, has.2⟩
          · cases hl
            by_cases hstatement : k = .expressionStatement
            · subst hstatement
              obtain ⟨hheaded, hsimple⟩ := Decidable.not_not.1 fun hn => hk ⟨rfl, hn⟩
              exact leadsAlone_of ha hheaded hsimple
            · exact leadsAlone_of_ne hstatement _
    | recast r =>
      cases hx
      refine ⟨?_, keeps (by simp)⟩
      obtain ⟨us, hus, rfl⟩ := Option.map_eq_some_iff.1 h
      obtain ⟨xs, u, v, ys, hitems, rfl, hu⟩ := exists_of_recastLast hus
      rw [hitems] at ha
      exact ⟨hsettled, ha.recast hu, has⟩
    | last p =>
      cases hx
      simp only [Step.run] at h
      split at h
      · cases h
        exact ⟨⟨hsettled, ha, has⟩, hs⟩
      · cases h

/-! ### Rules -/

/-- Where a part may begin, as far as its reading depends on it. -/
inductive Entry
  | anywhere
  /-- Before all trees of a node, behind the gap. -/
  | first
  /-- Behind one tree. -/
  | second
  deriving DecidableEq

namespace Entry

def facts : Entry → Facts
  | anywhere => ⟨false, [.nothing]⟩
  | first => ⟨true, [.fresh]⟩
  | second => ⟨false, [.single]⟩

/-- Where a part begins behind trees of which so much is known. -/
def of (settled : Bool) (a : Known) : Entry :=
  if a.headed ∧ a.count = some 1 then .second
  else if settled ∧ a.headed ∧ a.count = some 0 then .first else .anywhere

end Entry

/-- What a rule makes of what is known, if `exit` says what each part leaves. -/
def Rule.facts {σ : Type} (exit : σ → Entry → Known) : Rule σ → Facts → Option Facts
  | .empty, a | .present _, a | .absent _, a => some a
  | .step x, a => x.facts a
  | .part p, ⟨behind, a :: as⟩ => some ⟨false, exit p (.of behind a) :: as⟩
  | .part _, ⟨_, []⟩ => none
  | .seq r r', a => (r.facts exit a).bind (r'.facts exit)
  | .alt r r', a => (r.facts exit a).bind fun b => (r'.facts exit a).bind b.either
  | .many r, a =>
    (r.facts exit a).bind fun b => (a.either b).bind fun c =>
      -- what is left by one reading more, or nothing
      if (r.facts exit c).any fun d => c.either d = some c then some c
      else if (r.facts exit c.loose).any fun d => c.loose.either d = some c.loose then some c.loose
      else none

namespace Grammar
open Rule

/-- The parts that are one tree where they begin a node. -/
def Part.isSingle : Part → Bool
  | .expression _ _ | .expressions _ | .operand _ | .object | .array | .arguments | .template | .string
  | .element | .functionForm _ | .classForm _ => true
  | _ => false

/-- What is known of the innermost node behind a part. -/
def Part.exit : Part → Entry → Known
  | .continuation _ _, .second => .single
  | .arguments, .second => ⟨some 2, true, false⟩
  | p, .first => if p.isSingle then .single else .nothing
  | _, _ => .nothing

end Grammar

end ServerSplit.Js
