import ServerSplit.Proofs.Js.Blocked
import ServerSplit.Proofs.Js.Every
import ServerSplit.Proofs.Js.Fuel

/-! How a text that is known piece by piece is read. A rule goes from a piece to the text behind it and puts
trees on top of those that are there; pieces are read one behind another, whatever stands before them. -/
namespace ServerSplit.Js

open Grammar (R Part)

/-! ### Trees that stand for themselves -/

/-- Nothing in the tree is left that is only read as part of something else. -/
def Tree.Decided (t : Tree) : Prop := t.Every fun u => u.isUndecided = false

/-- Whether a node of the kind stands for itself, whatever is in it. -/
def Kind.isDecided : Kind → Bool
  | .coverInitializer | .cover | .pair => false
  | _ => true

theorem Tree.decided_leaf (u : Token) : (Tree.leaf u).Decided := Tree.every_leaf.2 rfl

theorem Tree.decided_node {k : Kind} {ts : List Tree} (hk : k.isDecided = true) :
    (Tree.node k ts).Decided ↔ ∀ t ∈ ts, t.Decided := by
  refine Tree.every_node.trans (and_iff_right ?_)
  simp only [Tree.isUndecided, Tree.isKind]
  cases k <;> first | rfl | cases hk

theorem Tree.decided_reverse {k : Kind} {ts : List Tree} (hk : k.isDecided = true) (h : ∀ t ∈ ts, t.Decided) :
    (Tree.node k ts.reverse).Decided :=
  (Tree.decided_node hk).2 fun t ht => h t (List.mem_reverse.1 ht)

theorem Tree.collectOf_eq_nil {ts : List Tree} :
    Tree.collectOf Tree.isUndecided ts = [] ↔ ∀ t ∈ ts, t.Decided := by
  constructor
  · intro h t ht u hu
    refine Bool.eq_false_iff.2 fun hundecided => ?_
    have := Tree.mem_collectOf.2 ⟨t, ht, hu, hundecided⟩
    rw [h] at this
    cases this
  · refine fun h => List.eq_nil_iff_forall_not_mem.2 fun u hu => ?_
    obtain ⟨t, ht, hholds, hundecided⟩ := Tree.mem_collectOf.1 hu
    rw [h t ht u hholds] at hundecided
    cases hundecided

/-! ### Readers -/

namespace Reader

/-- Behind a token, before the given text. -/
def fresh (t : Text) (n : Nat) (ts : List Tree) (us : List (List Tree)) : Reader :=
  { rest := t, offset := n, items := ts, outer := us }

/-- Behind the gap `b`, before the given text. -/
def ready (b t : Text) (n : Nat) (ts : List Tree) (us : List (List Tree)) : Reader :=
  { rest := t, offset := n, blank := b, settled := true, items := ts, outer := us }

variable {b t : Text} {n : Nat} {ts : List Tree} {us : List (List Tree)}

theorem fresh_blank : (fresh t n ts us).Blank := fun _ hc => nomatch hc

theorem ready_ready : (ready b t n ts us).Ready b t := ⟨rfl, rfl, rfl⟩

section Settle

variable (hb : ∀ c ∈ b, isGap c = true) (ht : t.head?.any isCodeStart = true)
include hb ht

theorem settle_go_fresh (c : Char) (w : Text) :
    settle.go {} (c :: w) (fresh (b ++ t) n ts us) = some (ready b t (n + b.size) ts us) := by
  obtain ⟨c, hhead, hc⟩ := (Option.any_eq_true _ _).1 ht
  obtain ⟨t, rfl⟩ := List.head?_eq_some_iff.1 hhead
  have hgap : isGap c = false := by
    simp only [isCodeStart, Bool.and_eq_true, Bool.not_eq_true'] at hc
    exact hc.1.1.1
  have htake : (b ++ c :: t).takeWhile isGap = b := by
    rw [List.takeWhile_append_of_pos hb, List.takeWhile_cons_of_neg (by simp [hgap]), List.append_nil]
  have hdrop : (b ++ c :: t).dropWhile isGap = c :: t := by
    rw [List.dropWhile_append_of_pos hb, List.dropWhile_cons_of_neg (by simp [hgap])]
  have hskip : (fresh (b ++ c :: t) n ts us).skipBlanks =
      { fresh (c :: t) n ts us with offset := n + b.size, blank := b } := by
    simp only [skipBlanks, fresh, htake, hdrop, List.nil_append]
  have hcomment : comment? {} (fresh (b ++ c :: t) n ts us).skipBlanks = none := by
    rw [hskip]
    exact comment?_eq_none hc rfl
  simp only [settle.go, isInserted, Bool.false_and, Bool.false_eq_true, if_false, hcomment]
  rw [hskip]
  rfl

/-- A gap of blanks is read up to the code behind it. -/
theorem settle_fresh : (fresh (b ++ t) n ts us).settle {} = some (ready b t (n + b.size) ts us) :=
  settle_go_fresh hb ht '\n' _

end Settle

end Reader

namespace Rule
open Reader

/-! ### Results with enough fuel -/

/-- With enough fuel the rule comes to the given result. -/
def Comes (r : R) (s : Reader) (o : Option Reader) : Prop := ∃ k, Yields k r s o

namespace Comes

variable {a b r : R} {s t u : Reader} {o : Option Reader}

theorem step {a : Step} (h : a.run s = o) : Comes (.step a) s o := ⟨1, .step (k := 0) h⟩

theorem part {p : Part} : Comes (grammar p) s o → Comes (.part p) s o
  | ⟨k, h⟩ => ⟨k + 1, .part h⟩

theorem seq : Comes a s (some t) → Comes b t o → Comes (a ++ b) s o
  | ⟨k, ha⟩, ⟨l, hb⟩ => ⟨k + l + 1, .seq (ha.mono (Nat.le_add_right k l)) (hb.mono (Nat.le_add_left l k))⟩

theorem seq_none : Comes a s none → Comes (a ++ b) s none
  | ⟨k, ha⟩ => ⟨k + 1, .seq_none ha⟩

theorem left : Comes a s (some t) → Comes (.alt a b) s (some t)
  | ⟨k, ha⟩ => ⟨k + 1, .left ha⟩

theorem right : Comes a s none → Comes b s o → Comes (.alt a b) s o
  | ⟨k, ha⟩, ⟨l, hb⟩ => ⟨k + l + 1, .right (ha.mono (Nat.le_add_right k l)) (hb.mono (Nat.le_add_left l k))⟩

theorem empty : Comes .empty s (some s) := ⟨1, fun _ => rfl⟩

theorem opt_some (ha : Comes a s (some t)) : Comes (opt a) s (some t) := left ha

theorem opt_none (ha : Comes a s none) : Comes (opt a) s (some s) := right ha empty

theorem many_stop : Comes a s none → Comes (many a) s (some s)
  | ⟨k, ha⟩ => ⟨k + 1, .many_stop ha⟩

theorem present : Comes a s (some t) → Comes (present a) s (some s)
  | ⟨k, ha⟩ => ⟨k + 1, .present ha⟩

theorem present_none : Comes a s none → Comes (Rule.present a) s none
  | ⟨k, ha⟩ => by
    refine ⟨k + 1, fun n => ?_⟩
    change (if (run grammar (n + k) a s).isSome then some s else none) = none
    rw [ha n]
    rfl

theorem absent : Comes a s none → Comes (absent a) s (some s)
  | ⟨k, ha⟩ => ⟨k + 1, .absent ha⟩

theorem absent_none : Comes a s (some t) → Comes (Rule.absent a) s none
  | ⟨k, ha⟩ => ⟨k + 1, .absent_none ha⟩

/-- What is read without the check that it goes ahead is read with it. -/
theorem of_freely {k : Nat} (hr : r.ReadsHeads) (hdepth : (r.depth? Grammar.deepPart).isSome = true) (hs : s.Blank)
    (h : ∀ n, r.runFreely grammar (n + k) s = o) : Comes r s o := by
  obtain ⟨d, hd⟩ := Option.isSome_iff_exists.1 hdepth
  refine ⟨d + share * s.rest.length + k, fun n => ?_⟩
  have hle : d + share * s.rest.length ≤ n + (d + share * s.rest.length) + k := by omega
  rw [← h (n + (d + share * s.rest.length)), ← Nat.add_assoc]
  exact (run_enough hr hd hs hle).2.symm

theorem part_freely {k : Nat} {p : Part} (hs : s.Blank) (h : ∀ n, runFreely grammar (n + k) (.part p) s = o) :
    Comes (.part p) s o := of_freely trivial rfl hs h

/-- What is read many times goes ahead, so that the next time follows. -/
theorem many_next (hr : a.ReadsHeads) (hreading : a.isReading = true)
    (hdepth : (a.depth? Grammar.deepPart).isSome = true) (hs : s.Blank) :
    Comes a s (some t) → Comes (many a) t o → Comes (many a) s o
  | ⟨k, ha⟩, ⟨l, hmany⟩ => by
    obtain ⟨d, hd⟩ := Option.isSome_iff_exists.1 hdepth
    have hahead := run_ahead_of_isReading hreading hd (Nat.le_add_right d k) hr hs (ha d)
    exact ⟨k + l + 1, .many_next (ha.mono (Nat.le_add_right k l)) (Nat.lt_of_succ_le hahead.offset)
      (hmany.mono (Nat.le_add_left l k))⟩

/-- What two rules read one behind the other is parted where the first one ends. -/
theorem of_seq (hr : a.ReadsHeads) (hdepth : (a.depth? Grammar.deepPart).isSome = true) (hs : s.Blank) :
    Comes (a ++ b) s (some u) → ∃ t, Comes a s (some t) ∧ Comes b t (some u)
  | ⟨k, h⟩ => by
    obtain ⟨d, hd⟩ := Option.isSome_iff_exists.1 hdepth
    let e := d + share * s.rest.length
    have hsplit (n : Nat) : ∃ t, a.run grammar e s = some t ∧ b.run grammar (e + (n + k)) t = some u := by
      have h := h (e + n + 1)
      rw [show e + n + 1 + k = e + (n + k) + 1 by omega] at h
      change run grammar (e + (n + k) + 1) (.seq a b) s = some u at h
      rw [run_seq, run_add hr hd hs] at h
      split at h
      · exact ⟨_, ‹_›, h⟩
      · cases h
    obtain ⟨t, ht, -⟩ := hsplit 0
    refine ⟨t, ⟨e, fun n => ?_⟩, e + k, fun n => ?_⟩
    · rw [Nat.add_comm, run_add hr hd hs, ht]
    · obtain ⟨t', ht', h⟩ := hsplit n
      cases ht.symm.trans ht'
      rw [← h]
      exact congrArg (fun i => run grammar i b t) (by omega)

theorem node {kind : Kind} (hgap : s.settle {} = some t) :
    Comes a t.opened (some u) → (Step.finish kind).run u = o → Comes (node kind a) s o
  | ⟨k, ha⟩, hfinish => ⟨k + 4, .node hgap ha hfinish⟩

theorem node_none {kind : Kind} (hgap : s.settle {} = some t) :
    Comes a t.opened none → Comes (Rule.node kind a) s none
  | ⟨k, ha⟩ => ⟨k + 4, .node_none hgap ha⟩

end Comes

/-! ### Reading up to a text -/

/-- From where it starts up to the text `u`, the rule reads trees that stand for themselves. -/
def Goes (r : R) (start : Nat → List Tree → List (List Tree) → Reader) (u : Text) : Prop :=
  ∀ n ts us, ∃ m new, Comes r (start n ts us) (some (fresh u m (new ++ ts) us)) ∧ ∀ f ∈ new, f.Decided

/-- From where it starts up to the text `u`, the rule reads a node of the given kind. -/
def Makes (k : Kind) (r : R) (start : Nat → List Tree → List (List Tree) → Reader) (u : Text) : Prop :=
  ∀ n ts us, ∃ m new, Comes r (start n ts us) (some (fresh u m (.node k new :: ts) us)) ∧ ∀ f ∈ new, f.Decided

/-- The rule does not fit where it starts. -/
def Misses (r : R) (start : Nat → List Tree → List (List Tree) → Reader) : Prop :=
  ∀ n ts us, Comes r (start n ts us) none

section Goes

variable {a b r : R} {k : Kind} {start : Nat → List Tree → List (List Tree) → Reader} {t u v : Text}

theorem Makes.goes (hk : k.isDecided = true) (h : Makes k r start u) : Goes r start u := by
  intro n ts us
  obtain ⟨m, new, hr, hnew⟩ := h n ts us
  exact ⟨m, [.node k new], hr, List.forall_mem_singleton.2 ((Tree.decided_node hk).2 hnew)⟩

theorem Goes.seq (ha : Goes a start u) (hb : Goes b (fresh u) v) : Goes (a ++ b) start v := by
  intro n ts us
  obtain ⟨m, new, ha, hnew⟩ := ha n ts us
  obtain ⟨m', new', hb, hnew'⟩ := hb m (new ++ ts) us
  refine ⟨m', new' ++ new, ?_, List.forall_mem_append.2 ⟨hnew', hnew⟩⟩
  rw [List.append_assoc]
  exact ha.seq hb

theorem Goes.left (h : Goes a start u) : Goes (.alt a b) start u := by
  intro n ts us
  obtain ⟨m, new, h, hnew⟩ := h n ts us
  exact ⟨m, new, h.left, hnew⟩

theorem Goes.right (ha : Misses a start) (hb : Goes b start u) : Goes (.alt a b) start u := by
  intro n ts us
  obtain ⟨m, new, hb, hnew⟩ := hb n ts us
  exact ⟨m, new, .right (ha n ts us) hb, hnew⟩

theorem Goes.part {p : Part} (h : Goes (grammar p) start u) : Goes (.part p) start u := by
  intro n ts us
  obtain ⟨m, new, h, hnew⟩ := h n ts us
  exact ⟨m, new, h.part, hnew⟩

/-- What follows is seen before it is read. -/
theorem Goes.seen (ha : Goes a start v) (h : Goes r start u) : Goes (present a ++ r) start u := by
  intro n ts us
  obtain ⟨_, _, ha, -⟩ := ha n ts us
  obtain ⟨m, new, h, hnew⟩ := h n ts us
  exact ⟨m, new, ha.present.seq h, hnew⟩

theorem Goes.unseen (ha : Misses a start) (h : Goes r start u) : Goes (absent a ++ r) start u := by
  intro n ts us
  obtain ⟨m, new, h, hnew⟩ := h n ts us
  exact ⟨m, new, (ha n ts us).absent.seq h, hnew⟩

theorem Goes.many_stop (h : Misses a (fresh t)) : Goes (many a) (fresh t) t :=
  fun n ts us => ⟨n, [], (h n ts us).many_stop, nofun⟩

theorem Goes.opt_none (h : Misses a (fresh t)) : Goes (opt a) (fresh t) t :=
  fun n ts us => ⟨n, [], (h n ts us).opt_none, nofun⟩

theorem Goes.many_next (hr : a.ReadsHeads) (hreading : a.isReading = true)
    (hdepth : (a.depth? Grammar.deepPart).isSome = true) (h : Goes a (fresh t) u)
    (hmany : Goes (many a) (fresh u) v) : Goes (many a) (fresh t) v := by
  intro n ts us
  obtain ⟨m, new, ha, hnew⟩ := h n ts us
  obtain ⟨m', new', hb, hnew'⟩ := hmany m (new ++ ts) us
  refine ⟨m', new' ++ new, ?_, List.forall_mem_append.2 ⟨hnew', hnew⟩⟩
  rw [List.append_assoc]
  exact .many_next hr hreading hdepth fresh_blank ha hb

/-- A node is read from its opening to its end. -/
theorem Goes.node {c : Text} (h : Goes a (ready c t) u) : Makes k (Rule.node k a) (ready c t) u := by
  intro n ts us
  obtain ⟨m, new, ha, hnew⟩ := h n [] (ts :: us)
  rw [List.append_nil] at ha
  exact ⟨m, new.reverse, .node (ready_ready.settle {}) ha rfl, fun f hf => hnew f (List.mem_reverse.1 hf)⟩

theorem Stuck.misses {c : Text} (h : Stuck c t r) : Misses r (ready c t) := fun _ _ _ => ⟨0, h.yields ready_ready⟩

/-- A token is read behind its gap. -/
theorem goes_read {c w : Text} {l : Leaf} {reads : Js.Reads} (h : reads t = some (w, u)) :
    Goes (read l reads) (ready c t) u :=
  fun n _ _ => ⟨n + w.size, [.leaf ⟨l, c, w, n⟩], .step (ready_ready.token l h),
    List.forall_mem_singleton.2 (Tree.decided_leaf _)⟩

/-- A token with nothing before it. -/
theorem goes_glued {w : Text} {l : Leaf} {reads : Js.Reads} (h : reads t = some (w, u)) :
    Goes (glued l reads) (fresh t) u := by
  refine fun n _ _ => ⟨n + w.size, [.leaf ⟨l, [], w, n⟩], .step ?_, List.forall_mem_singleton.2 (Tree.decided_leaf _)⟩
  simp [Step.run, Reader.take, Reader.push, fresh, h]

/-- Where the gap has been read, a rule behind it reads on. -/
theorem Goes.gap {c : Text} (h : Goes r (ready c t) u) : Goes (Rule.gap {} ++ r) (ready c t) u := by
  intro n ts us
  obtain ⟨m, new, h, hnew⟩ := h n ts us
  exact ⟨m, new, .seq (.step (ready_ready.settle {})) h, hnew⟩

end Goes

/-! ### Rules behind a gap -/

/-- The rule passes over a gap before anything else. -/
def PassesGap (r : R) : Prop :=
  ∃ k, ∀ n s v, s.settle {} = some v → r.run grammar (n + k) s = r.run grammar (n + k) v

section PassesGap

variable {a a' r : R} {k : Kind} {t u : Text}

theorem settle_settled {s v : Reader} {g g' : Gap} (h : s.settle g = some v) : v.settle g' = some v := by
  simp only [Reader.settle, settled_of_settle h, if_true]

theorem passesGap_gap : PassesGap (gap {}) := ⟨1, fun _ _ _ h => h.trans (settle_settled h).symm⟩

theorem passesGap_read {l : Leaf} {reads : Js.Reads} : PassesGap (read l reads) := by
  refine ⟨1, fun n s v h => ?_⟩
  change (s.settle {}).bind _ = (v.settle {}).bind _
  rw [h, settle_settled h]

theorem PassesGap.seq (h : PassesGap a) : PassesGap (a ++ a') := by
  obtain ⟨k, h⟩ := h
  refine ⟨k + 1, fun n s v hs => ?_⟩
  change run grammar (n + k + 1) (.seq a a') s = run grammar (n + k + 1) (.seq a a') v
  rw [run_seq, run_seq, h n s v hs]

theorem PassesGap.part {p : Part} (h : PassesGap (grammar p)) : PassesGap (.part p) := by
  obtain ⟨k, h⟩ := h
  exact ⟨k + 1, h⟩

theorem passesGap_node : PassesGap (Rule.node k a) := passesGap_gap.seq.seq.seq

theorem Comes.behind {s v : Reader} {o : Option Reader} (hr : PassesGap r) (hs : s.settle {} = some v) :
    Comes r v o → Comes r s o
  | ⟨l, h⟩ => by
    obtain ⟨k, hr⟩ := hr
    refine ⟨l + k, fun n => ?_⟩
    rw [← Nat.add_assoc, hr (n + l) s v hs, ← h (n + k)]
    congr 1
    omega

-- The rule starts at the gap `b`, and code is behind it.
variable {b : Text} (hr : PassesGap r) (hb : ∀ c ∈ b, isGap c = true) (ht : t.head?.any isCodeStart = true)
include hr hb ht

theorem Goes.behind (h : Goes r (ready b t) u) : Goes r (fresh (b ++ t)) u := by
  intro n ts us
  obtain ⟨m, new, h, hnew⟩ := h (n + b.size) ts us
  exact ⟨m, new, h.behind hr (settle_fresh hb ht), hnew⟩

theorem Misses.behind (h : Misses r (ready b t)) : Misses r (fresh (b ++ t)) :=
  fun n ts us => (h (n + b.size) ts us).behind hr (settle_fresh hb ht)

end PassesGap

end Rule

end ServerSplit.Js
