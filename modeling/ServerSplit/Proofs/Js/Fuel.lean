import ServerSplit.Proofs.Js.Yields

/-! The fuel with which a source is read. Between two tokens the rules of the grammar go only a few levels
down, so a fixed share of fuel for each character is enough: with more, every rule comes to the same. And what
is read many times reads a token each time, so that the check for it can be left out. -/
namespace ServerSplit.Js

open Grammar (R Part)

/-- The step reads a token. -/
def Step.isReading : Step → Bool
  | .token .. | .glued .. | .comment _ | .question _ => true
  | _ => false

namespace Rule

variable {σ : Type}

/-- The rule reads a token wherever it fits, if the parts do. -/
def isReading : Rule σ → Bool
  | .step a => a.isReading
  | .part _ => true
  | .seq a b => a.isReading || b.isReading
  | .alt a b => a.isReading && b.isReading
  | .absent .empty => true
  | .empty | .many _ | .present _ | .absent _ => false

/-- The fuel for a character. -/
def share : Nat := 1024

/-- How many levels the rule goes down before it reads a token, if the parts go as deep as given and read
one. What stands behind a token has the share of the token besides; and what is read many times must read
a token each time. -/
def depth? (deep : σ → Nat) : Rule σ → Option Nat
  | .empty | .step _ => some 1
  | .part p => some (deep p + 1)
  | .seq a b =>
    (a.depth? deep).bind fun m => (b.depth? deep).map fun n =>
      max m (if a.isReading then n - share else n) + 1
  | .alt a b => (a.depth? deep).bind fun m => (b.depth? deep).map fun n => max m n + 1
  | .many a => if a.isReading then (a.depth? deep).map (· + 1) else none
  | .present a | .absent a => (a.depth? deep).map (· + 1)

end Rule

/-! ### How far a step goes -/

namespace Reader

/-- Nothing but blanks stands between the last token and the rest. -/
def Blank (s : Reader) : Prop := ∀ c ∈ s.blank, isGap c = true

/-- `s'` is at least `n` characters further in the text than `s`. -/
structure Ahead (n : Nat) (s s' : Reader) : Prop where
  offset : s.offset + n ≤ s'.offset
  rest : s'.rest.length + n ≤ s.rest.length
  blank : s'.Blank

variable {s s' t u : Reader}

theorem Ahead.refl (h : s.Blank) : Ahead 0 s s := ⟨Nat.le_refl _, Nat.le_refl _, h⟩

theorem Ahead.trans {m n : Nat} (h : Ahead m s t) (h' : Ahead n t u) : Ahead (m + n) s u := by
  refine ⟨?_, ?_, h'.blank⟩
  · have := h.offset
    have := h'.offset
    omega
  · have := h.rest
    have := h'.rest
    omega

theorem Ahead.zero {n : Nat} (h : Ahead n s t) : Ahead 0 s t :=
  ⟨Nat.le_trans (Nat.le_add_right _ n) h.offset, Nat.le_trans (Nat.le_add_right _ n) h.rest, h.blank⟩

theorem Ahead.skipBlanks (h : s.Blank) : Ahead 0 s s.skipBlanks := by
  refine ⟨Nat.le_add_right _ _, (List.dropWhile_suffix isGap).length_le, ?_⟩
  intro c hc
  rcases List.mem_append.1 hc with hc | hc
  · exact h c hc
  · exact List.mem_takeWhile_imp hc

theorem Ahead.push {k : Leaf} {w r : Text} (hw : w ≠ []) (hr : s.rest = w ++ r) : Ahead 1 s (s.push k w r) := by
  refine ⟨Nat.add_le_add_left (Text.size_pos hw) _, ?_, fun _ hc => nomatch hc⟩
  have := List.length_pos_iff.2 hw
  rw [hr, List.length_append]
  simp only [Reader.push]
  omega

theorem Ahead.comment {g : Gap} (h : s.Blank) (hs : s.comment g = some s') : Ahead 1 s s' := by
  unfold Reader.comment at hs
  split at hs
  · cases hs
  · obtain ⟨⟨k, w, r⟩, hc, rfl⟩ := Option.map_eq_some_iff.1 hs
    obtain ⟨hw, hr⟩ := comment?_takes hc
    have hpush := (Ahead.skipBlanks h).trans (Ahead.push (k := k) hw hr)
    rwa [Nat.zero_add] at hpush

theorem Ahead.settle {g : Gap} (h : s.Blank) (hs : s.settle g = some s') : Ahead 0 s s' := by
  unfold Reader.settle at hs
  split at hs
  · cases hs
    exact .refl h
  · exact go h hs
where
  go {n : Text} {s : Reader} (h : s.Blank) (hs : Reader.settle.go g n s = some s') : Ahead 0 s s' := by
    induction n generalizing s with
    | nil => cases hs
    | cons _ n ih =>
      simp only [Reader.settle.go] at hs
      split at hs
      · cases hs
      · split at hs
        · rename_i k w r hc
          obtain ⟨hw, hr⟩ := comment?_takes hc
          have hpush := (Ahead.skipBlanks h).trans (Ahead.push (k := k) hw hr)
          exact (hpush.trans (ih hpush.blank hs)).zero
        · cases hs
          exact { Ahead.skipBlanks h with }

theorem Ahead.insertion {operator : Bool} (h : s.Blank) (hs : s.insertion operator = some s') : Ahead 0 s s' := by
  unfold Reader.insertion at hs
  split at hs
  · cases hs
  · exact go h hs
where
  go {n : Text} {s : Reader} (h : s.Blank) (hs : Reader.insertion.go operator n s = some s') : Ahead 0 s s' := by
    induction n generalizing s with
    | nil => cases hs
    | cons _ n ih =>
      simp only [Reader.insertion.go] at hs
      split at hs
      · cases hs
        exact { Ahead.refl h with }
      · obtain ⟨p, hp, hs⟩ := Option.bind_eq_some_iff.1 hs
        obtain ⟨hw, hr⟩ := Comment.takes_read hp
        have hpush := (Ahead.skipBlanks h).trans (Ahead.push (k := .comment) hw hr)
        exact (hpush.trans (ih hpush.blank hs)).zero

theorem Ahead.take {k : Leaf} {reads : Reads} (hk : Takes reads) (hs : s.take k reads = some s') : Ahead 1 s s' := by
  obtain ⟨p, hp, rfl⟩ := Option.map_eq_some_iff.1 hs
  obtain ⟨hw, hr⟩ := hk hp
  exact { Ahead.push (k := k) hw hr with }

/-- The mark of a choice is no blank, so none of the blanks before it is taken back. -/
theorem Ahead.question {semicolon : Bool} (h : s.Blank) (hs : s.question semicolon = some s') : Ahead 1 s s' := by
  obtain ⟨passed, rest, w, r, happend, hp, rfl⟩ := exists_of_question hs
  obtain ⟨hw, hr⟩ := Lexeme.takes_question hp
  obtain ⟨x, rfl, hx⟩ : ∃ x, passed = s.blank ++ x ∧ s.rest = x ++ rest := by
    rcases List.append_eq_append_iff.1 happend with ⟨x, hblank, hrest⟩ | ⟨x, hpassed, hrest⟩
    · cases x with
      | nil => exact ⟨[], by simpa using hblank.symm, by simpa using hrest.symm⟩
      | cons c x =>
        have hgap : isGap c = true := h c (by simp [hblank])
        rw [hrest] at hp
        have hmark : c = '?' := by
          unfold Lexeme.question at hp
          split at hp <;> simp_all
        rw [hmark] at hgap
        cases hgap
    · exact ⟨x, hpassed, hrest⟩
  have hsize := Text.size_pos hw
  have hlength := List.length_pos_iff.2 hw
  refine ⟨?_, ?_, fun _ hc => nomatch hc⟩
  · simp only [Reader.push, Text.size_append]
    omega
  · simp only [Reader.push, hx, hr, List.length_append]
    omega

end Reader

/-- A step that reads a token goes ahead, and no step goes back. -/
theorem Step.ahead {a : Step} {s s' : Reader} (ha : a.ReadsHead) (h : s.Blank) (hs : a.run s = some s') :
    Reader.Ahead a.isReading.toNat s s' := by
  have same (hoffset : s'.offset = s.offset) (hrest : s'.rest = s.rest) (hblank : s'.blank = s.blank) :
      Reader.Ahead 0 s s' :=
    ⟨Nat.le_of_eq hoffset.symm, by rw [hrest]; exact Nat.le_refl _, by rw [Reader.Blank, hblank]; exact h⟩
  cases a with
  | token k reads =>
    obtain ⟨t, ht, hs⟩ := Option.bind_eq_some_iff.1 hs
    have := (Reader.Ahead.settle h ht).trans (.take ha hs)
    rwa [Nat.zero_add] at this
  | glued k reads =>
    simp only [Step.run] at hs
    split at hs
    · exact .take ha hs
    · cases hs
  | comment g => exact .comment h hs
  | gap g => exact .settle h hs
  | question semicolon => exact .question h hs
  | insertion operator => exact .insertion h hs
  | closing operator =>
    simp only [Step.run, Option.orElse_eq_orElse, Option.orElse_eq_or, Option.or_eq_some_iff] at hs
    rcases hs with hs | ⟨-, hs⟩
    · exact .insertion h hs
    · cases hs
      exact same rfl rfl rfl
  | opening =>
    cases hs
    exact same rfl rfl rfl
  | adopt n =>
    obtain ⟨p, -, hs⟩ := Option.bind_eq_some_iff.1 hs
    cases hs
    exact same rfl rfl rfl
  | finish k =>
    simp only [Step.run] at hs
    split at hs
    · cases hs
    · cases hs
      exact same rfl rfl rfl
  | recast r =>
    obtain ⟨us, -, rfl⟩ := Option.map_eq_some_iff.1 hs
    exact same rfl rfl rfl
  | last p =>
    simp only [Step.run] at hs
    split at hs
    · cases hs
      exact same rfl rfl rfl
    · cases hs

/-! ### The depth of the grammar -/

namespace Grammar
open Rule

/-- How deep the parts go before they read a token, at most. -/
def deepPart : Part → Nat
  | .statement _ => 100
  | .declarators | .arrowBody _ | .expressions _ => 60
  | .expression .. => 50
  | .operand _ | .continuation .. => 40
  | .objectMember | .classMember => 30
  | .classForm _ => 20
  | _ => 10

/-- The rule reads a token wherever it fits, and goes no deeper before it than given. -/
def ReadsWithin (deep : Nat) (r : R) : Bool := r.isReading && (r.depth? deepPart).any (· ≤ deep)

private theorem binary_eq_nil (c : Ctx) {level : Nat} (h : constructorLevel ≤ level) : binary c level = [] := by
  have h : 17 ≤ level := h
  have hfilter : binaryLevels.filter (level ≤ ·.1) = [] := by
    refine List.filter_eq_nil_iff.2 fun l hl => ?_
    have : l.1 ≤ 12 := by
      revert l
      decide
    simp only [decide_eq_true_eq]
    omega
  simp [binary, hfilter, headLevel, show ¬ level ≤ 8 by omega]

/-- From the level of `new` on nothing but access goes on with an expression. -/
theorem continuation_of_le (c : Ctx) {level : Nat} (h : constructorLevel ≤ level) :
    continuation c level = continuation c constructorLevel := by
  unfold continuation
  rw [binary_eq_nil c h, binary_eq_nil c (Nat.le_refl _)]
  have h : 17 ≤ level := h
  simp [constructorLevel, show ¬ level < 17 by omega, show ¬ level ≤ 14 by omega, show ¬ level ≤ 1 by omega]

theorem part_reads (p : Part) : ReadsWithin (deepPart p) (grammar p) = true := by
  cases p with
  | statement inCase => revert inCase; decide +kernel
  | block operator => revert operator; decide +kernel
  | continuation c level =>
    have hreads : ∀ x y z : Bool, ∀ l ≤ 17, ReadsWithin 40 (continuation ⟨x, y, z⟩ l) = true := by decide +kernel
    change ReadsWithin 40 (continuation c level) = true
    rcases Nat.le_total level 17 with h | h
    · exact hreads _ _ _ level h
    · rw [continuation_of_le c h]
      exact hreads _ _ _ 17 (Nat.le_refl 17)
  | expressions c | operand c | arrowBody c =>
    obtain ⟨x, y, z⟩ := c
    revert x y z
    decide +kernel
  | expression c level =>
    change ReadsWithin 50 (.seq (.part (.operand c)) (.many (.part (.continuation c level)))) = true
    simp [ReadsWithin, isReading, depth?, deepPart, share]
  | functionForm r | classForm r => cases r <;> decide +kernel
  | _ => decide +kernel

theorem part_isReading (p : Part) : (grammar p).isReading = true := by
  have h := part_reads p
  simp only [ReadsWithin, Bool.and_eq_true] at h
  exact h.1

theorem part_depth (p : Part) : ∃ d ≤ deepPart p, (grammar p).depth? deepPart = some d := by
  have h := part_reads p
  simp only [ReadsWithin, Bool.and_eq_true, Option.any_eq_true, decide_eq_true_eq] at h
  obtain ⟨-, d, hd, hle⟩ := h
  exact ⟨d, hle, hd⟩

end Grammar

/-! ### Fuel that is enough -/

namespace Rule
open Grammar

/-- Reads by a rule, without the check that what is read many times goes ahead. -/
def runFreely {σ : Type} (grammar : σ → Rule σ) : Nat → Rule σ → Reader → Option Reader
  | 0, _, _ => none
  | n + 1, rule, s =>
    match rule with
    | .empty => some s
    | .step a => a.run s
    | .part p => runFreely grammar n (grammar p) s
    | .seq a b =>
      match runFreely grammar n a s with
      | some s => runFreely grammar n b s
      | none => none
    | .alt a b =>
      match runFreely grammar n a s with
      | some s => some s
      | none => runFreely grammar n b s
    | .many a =>
      match runFreely grammar n a s with
      | some s' => runFreely grammar n (.many a) s'
      | none => some s
    | .present a => if (runFreely grammar n a s).isSome then some s else none
    | .absent a => if (runFreely grammar n a s).isSome then none else some s

section Run

variable {n : Nat} {a b : R} {s : Reader}

theorem run_seq : run grammar (n + 1) (.seq a b) s =
    match run grammar n a s with
    | some s => run grammar n b s
    | none => none := rfl

theorem run_alt : run grammar (n + 1) (.alt a b) s =
    match run grammar n a s with
    | some s => some s
    | none => run grammar n b s := rfl

theorem run_many : run grammar (n + 1) (.many a) s =
    match run grammar n a s with
    | some s' => if s.offset < s'.offset then run grammar n (.many a) s' else some s'
    | none => some s := rfl

theorem run_present : run grammar (n + 1) (.present a) s = if (run grammar n a s).isSome then some s else none := rfl

theorem run_absent : run grammar (n + 1) (.absent a) s = if (run grammar n a s).isSome then none else some s := rfl

theorem runFreely_seq : runFreely grammar (n + 1) (.seq a b) s =
    match runFreely grammar n a s with
    | some s => runFreely grammar n b s
    | none => none := rfl

theorem runFreely_alt : runFreely grammar (n + 1) (.alt a b) s =
    match runFreely grammar n a s with
    | some s => some s
    | none => runFreely grammar n b s := rfl

theorem runFreely_many : runFreely grammar (n + 1) (.many a) s =
    match runFreely grammar n a s with
    | some s' => runFreely grammar n (.many a) s'
    | none => some s := rfl

theorem runFreely_present : runFreely grammar (n + 1) (.present a) s =
    if (runFreely grammar n a s).isSome then some s else none := rfl

theorem runFreely_absent : runFreely grammar (n + 1) (.absent a) s =
    if (runFreely grammar n a s).isSome then none else some s := rfl

end Run

/-- Rules go ahead, if they only read heads of the text. -/
theorem run_ahead {n : Nat} {r : R} {s s' : Reader} (hr : r.ReadsHeads) (hs : s.Blank)
    (h : r.run grammar n s = some s') : Reader.Ahead 0 s s' := by
  refine run_keeps (P := Reader.Ahead 0 s) ?_ (fun p => (readsHeads p).each) hr.each (.refl hs) h
  intro a t t' ha ht hstep
  exact (ht.trans (Step.ahead ha ht.blank hstep)).zero

/-- A rule that reads a token goes ahead, if the fuel is enough to tell where it does not fit. -/
theorem run_ahead_of_isReading {n d : Nat} {r : R} {s s' : Reader} (hreading : r.isReading = true)
    (hd : r.depth? deepPart = some d) (hle : d ≤ n) (hr : r.ReadsHeads) (hs : s.Blank)
    (h : r.run grammar n s = some s') : Reader.Ahead 1 s s' := by
  induction n generalizing r s s' d with
  | zero => cases h
  | succ n ih =>
    cases r with
    | empty | many | present => cases hreading
    | step a =>
      have := Step.ahead hr hs h
      rwa [show a.isReading = true from hreading] at this
    | part p =>
      obtain ⟨e, he, hdepth⟩ := part_depth p
      cases hd
      exact ih (part_isReading p) hdepth (by omega) (readsHeads p) hs h
    | seq a b =>
      obtain ⟨m, hm, hd⟩ := Option.bind_eq_some_iff.1 hd
      obtain ⟨e, he, rfl⟩ := Option.map_eq_some_iff.1 hd
      rw [run_seq] at h
      split at h
      · rename_i t ht
        have hat := run_ahead hr.1 hs ht
        cases ha : a.isReading with
        | true => exact (ih ha hm (by omega) hr.1 hs ht).trans (run_ahead hr.2 hat.blank h)
        | false =>
          simp only [isReading, ha, Bool.false_or] at hreading
          simp only [ha, Bool.false_eq_true, if_false] at hle
          have := hat.trans (ih hreading he (by omega) hr.2 hat.blank h)
          rwa [Nat.zero_add] at this
      · cases h
    | alt a b =>
      obtain ⟨m, hm, hd⟩ := Option.bind_eq_some_iff.1 hd
      obtain ⟨e, he, rfl⟩ := Option.map_eq_some_iff.1 hd
      simp only [isReading, Bool.and_eq_true] at hreading
      rw [run_alt] at h
      split at h
      · rename_i t ht
        cases h
        exact ih hreading.1 hm (by omega) hr.1 hs ht
      · exact ih hreading.2 he (by omega) hr.2 hs h
    | absent a =>
      -- Only the choice without alternatives is of this form.
      cases a with
      | empty =>
        cases hd
        cases n with
        | zero => exact absurd hle (by decide)
        | succ n => cases h
      | _ => cases hreading

theorem depth_pos {r : R} {d : Nat} (h : r.depth? deepPart = some d) : 0 < d := by
  cases r with
  | empty | step | part => cases h; exact Nat.succ_pos _
  | seq | alt =>
    obtain ⟨m, -, h⟩ := Option.bind_eq_some_iff.1 h
    obtain ⟨e, -, rfl⟩ := Option.map_eq_some_iff.1 h
    exact Nat.succ_pos _
  | many a =>
    simp only [depth?] at h
    split at h
    · obtain ⟨e, -, rfl⟩ := Option.map_eq_some_iff.1 h
      exact Nat.succ_pos _
    · cases h
  | present | absent =>
    obtain ⟨e, -, rfl⟩ := Option.map_eq_some_iff.1 h
    exact Nat.succ_pos _

/-- With enough fuel for the rest of the text, more fuel and the missing check change nothing. -/
theorem run_enough {n d : Nat} {r : R} {s : Reader} (hr : r.ReadsHeads) (hd : r.depth? deepPart = some d)
    (hs : s.Blank) (hle : d + share * s.rest.length ≤ n) :
    r.run grammar (n + 1) s = r.run grammar n s ∧ r.runFreely grammar n s = r.run grammar n s := by
  induction n generalizing r s d with
  | zero =>
    have := depth_pos hd
    omega
  | succ n ih =>
    -- What is read leaves less of the text where a token was read.
    have further {a : R} (ha : a.ReadsHeads) {t : Reader} (ht : a.run grammar n s = some t) :
        share * t.rest.length ≤ share * s.rest.length :=
      Nat.mul_le_mul_left share (run_ahead ha hs ht).rest
    have behind {a : R} (ha : a.ReadsHeads) {e : Nat} (he : a.depth? deepPart = some e) (hen : e ≤ n)
        (hreading : a.isReading = true) {t : Reader} (ht : a.run grammar n s = some t) :
        share + share * t.rest.length ≤ share * s.rest.length := by
      have := Nat.mul_le_mul_left share (run_ahead_of_isReading hreading he hen ha hs ht).rest
      rw [Nat.mul_add, Nat.mul_one] at this
      omega
    cases r with
    | empty | step => exact ⟨rfl, rfl⟩
    | part p =>
      obtain ⟨e, he, hdepth⟩ := part_depth p
      cases hd
      exact ih (readsHeads p) hdepth hs (by omega)
    | seq a b =>
      obtain ⟨m, hm, hd⟩ := Option.bind_eq_some_iff.1 hd
      obtain ⟨e, he, rfl⟩ := Option.map_eq_some_iff.1 hd
      obtain ⟨ha, hfree⟩ := ih hr.1 hm hs (by omega)
      have hb {t : Reader} (ht : a.run grammar n s = some t) := by
        refine ih hr.2 he (run_ahead hr.1 hs ht).blank ?_
        cases hreading : a.isReading with
        | true =>
          have := behind hr.1 hm (by omega) hreading ht
          simp only [hreading, if_true] at hle
          omega
        | false =>
          have := further hr.1 ht
          simp only [hreading, Bool.false_eq_true, if_false] at hle
          omega
      rw [run_seq, run_seq, runFreely_seq, ha, hfree]
      split
      · rename_i t ht
        exact hb ht
      · exact ⟨rfl, rfl⟩
    | alt a b =>
      obtain ⟨m, hm, hd⟩ := Option.bind_eq_some_iff.1 hd
      obtain ⟨e, he, rfl⟩ := Option.map_eq_some_iff.1 hd
      obtain ⟨ha, hfree⟩ := ih hr.1 hm hs (by omega)
      obtain ⟨hb, hfree'⟩ := ih hr.2 he hs (by omega)
      rw [run_alt, run_alt, runFreely_alt, ha, hfree, hb, hfree']
      exact ⟨rfl, rfl⟩
    | many a =>
      simp only [depth?] at hd
      split at hd
      · rename_i hreading
        obtain ⟨e, he, rfl⟩ := Option.map_eq_some_iff.1 hd
        obtain ⟨ha, hfree⟩ := ih (r := a) hr he hs (by omega)
        rw [run_many, run_many, runFreely_many, ha, hfree]
        split
        · rename_i t ht
          have hahead := run_ahead_of_isReading hreading he (by omega) hr hs ht
          have hbehind := behind (a := a) hr he (by omega) hreading ht
          have hmany : (many a).depth? deepPart = some (e + 1) := by simp [depth?, hreading, he]
          have hshare : 0 < share := by decide
          rw [if_pos (Nat.lt_of_succ_le hahead.offset), if_pos (Nat.lt_of_succ_le hahead.offset)]
          exact ih (r := many a) hr hmany hahead.blank (by omega)
        · exact ⟨rfl, rfl⟩
      · cases hd
    | present a =>
      obtain ⟨e, he, rfl⟩ := Option.map_eq_some_iff.1 hd
      obtain ⟨ha, hfree⟩ := ih (r := a) hr he hs (by omega)
      rw [run_present, run_present, runFreely_present, ha, hfree]
      exact ⟨rfl, rfl⟩
    | absent a =>
      obtain ⟨e, he, rfl⟩ := Option.map_eq_some_iff.1 hd
      obtain ⟨ha, hfree⟩ := ih (r := a) hr he hs (by omega)
      rw [run_absent, run_absent, runFreely_absent, ha, hfree]
      exact ⟨rfl, rfl⟩

theorem run_add {d : Nat} {r : R} {s : Reader} (hr : r.ReadsHeads) (hd : r.depth? deepPart = some d)
    (hs : s.Blank) (n : Nat) :
    r.run grammar (d + share * s.rest.length + n) s = r.run grammar (d + share * s.rest.length) s := by
  induction n with
  | zero => rfl
  | succ n ih => rw [← ih, ← (run_enough hr hd hs (Nat.le_add_right _ n)).1]; rfl

end Rule

end ServerSplit.Js
