import ServerSplit.Proofs.Js.Runs

/-! What can be read where the text goes on with a given character. Most rules can read nothing there,
which leaves few ways to read a known text. -/
namespace ServerSplit.Js

/-- The character begins neither a gap nor a comment. -/
def isCodeStart (c : Char) : Bool := !isGap c && c != '/' && c != '<' && c != '-'

namespace Reader

/-- The text of the reader goes on with the character. -/
def At (c : Char) (s : Reader) : Prop := s.rest.head? = some c

theorem comment?_eq_none {c : Char} (hc : isCodeStart c = true) {g : Gap} {s : Reader} (h : s.At c) :
    comment? g s = none := by
  simp only [isCodeStart, Bool.and_eq_true, bne_iff_ne] at hc
  obtain ⟨⟨⟨-, hslash⟩, hless⟩, hminus⟩ := hc
  obtain ⟨u, hrest⟩ := List.head?_eq_some_iff.1 h
  have hread : Comment.read? (c :: u) = none := by
    unfold Comment.read?
    split <;> simp_all
  have hmarkup : Comment.readMarkup? (c :: u) = none := by
    unfold Comment.readMarkup?
    split <;> simp_all
  simp only [comment?, hrest, hread, hmarkup, Option.map_none, ite_self]

/-- `s'` is `s` behind blanks of the given size, with the given text left. -/
structure Passes (n : Nat) (t : Text) (s s' : Reader) : Prop where
  rest : s'.rest = t
  offset : s'.offset = s.offset + n
  blank : s'.blank.size = s.blank.size + n
  items : s'.items = s.items
  outer : s'.outer = s.outer

/-- A gap of blanks is read up to the code behind it, and no comment is found in it. -/
theorem settle_blanks {g : Gap} {s s' : Reader} {b u : Text} {c : Char} (hc : isCodeStart c = true)
    (hb : ∀ d ∈ b, isGap d = true) (hsettled : s.settled = false ∨ b = []) (hrest : s.rest = b ++ c :: u)
    (hs : s.settle g = some s') : Passes b.size (c :: u) s s' := by
  have hgap : isGap c = false := by
    simp only [isCodeStart, Bool.and_eq_true, Bool.not_eq_true'] at hc
    exact hc.1.1.1
  have htake : s.rest.takeWhile isGap = b := by
    rw [hrest, List.takeWhile_append_of_pos hb, List.takeWhile_cons_of_neg (by simp [hgap]),
      List.append_nil]
  have hdrop : s.rest.dropWhile isGap = c :: u := by
    rw [hrest, List.dropWhile_append_of_pos hb, List.dropWhile_cons_of_neg (by simp [hgap])]
  unfold settle at hs
  split at hs
  · rename_i hset
    obtain rfl : b = [] := hsettled.resolve_left (by simp [hset])
    cases hs
    exact ⟨hrest, rfl, rfl, rfl, rfl⟩
  · simp only [settle.go] at hs
    split at hs
    · cases hs
    · have hcode : s.skipBlanks.At c := by simp [At, skipBlanks, hdrop]
      rw [comment?_eq_none hc hcode] at hs
      cases hs
      exact ⟨hdrop, by simp only [skipBlanks, htake], by simp only [skipBlanks, htake, Text.size_append], rfl, rfl⟩

/-- Where the text goes on with code, a gap is nothing. -/
theorem settle_at {g : Gap} {s s' : Reader} {c : Char} (hc : isCodeStart c = true) (h : s.At c)
    (hs : s.settle g = some s') : Passes 0 s.rest s s' := by
  obtain ⟨u, hrest⟩ := List.head?_eq_some_iff.1 h
  rw [hrest]
  exact settle_blanks hc (by simp) (.inr rfl) (b := []) hrest hs

/-- `s'` is `s` with one token more, at the given place. -/
structure ReadsOne (k : Leaf) (reads : Reads) (n : Nat) (t : Text) (s s' : Reader) (tok : Token) : Prop where
  reads : reads t = some (tok.text, s'.rest)
  kind : tok.kind = k
  before : tok.before.size = s.blank.size + n
  start : tok.start = s.offset + n
  items : s'.items = .leaf tok :: s.items
  outer : s'.outer = s.outer
  settled : s'.settled = false

/-- A token behind blanks is read from the code behind them. -/
theorem token_blanks {k : Leaf} {reads : Reads} {s s' : Reader} {b u : Text} {c : Char}
    (hc : isCodeStart c = true) (hb : ∀ d ∈ b, isGap d = true) (hsettled : s.settled = false ∨ b = [])
    (hrest : s.rest = b ++ c :: u) (hs : (Step.token k reads).run s = some s') :
    ∃ tok, ReadsOne k reads b.size (c :: u) s s' tok := by
  obtain ⟨t, ht, hs⟩ := Option.bind_eq_some_iff.1 hs
  obtain ⟨⟨w, r⟩, hreads, rfl⟩ := Option.map_eq_some_iff.1 hs
  obtain ⟨hrest', hoffset, hblank, hitems, houter⟩ := settle_blanks hc hb hsettled hrest ht
  refine ⟨⟨k, t.blank, w, t.offset⟩, hrest' ▸ hreads, rfl, hblank, hoffset, ?_, houter, rfl⟩
  rw [← hitems]
  rfl

theorem token_at {k : Leaf} {reads : Reads} {s s' : Reader} {c : Char} (hc : isCodeStart c = true)
    (h : s.At c) (hs : (Step.token k reads).run s = some s') :
    ∃ tok, ReadsOne k reads 0 s.rest s s' tok := by
  obtain ⟨u, hrest⟩ := List.head?_eq_some_iff.1 h
  rw [hrest]
  exact token_blanks hc (by simp) (.inr rfl) (b := []) hrest hs

end Reader

/-! ### Tokens -/

/-- No such token begins with the character. -/
def Never (c : Char) (reads : Reads) : Prop := ∀ t : Text, t.head? = some c → reads t = none

namespace Lexeme

variable {c : Char}

/-- A token begins with what the text begins with. -/
theorem never_of_takes {reads : Reads} (h : Takes reads)
    (hw : ∀ t w r, reads t = some (w, r) → w.head? ≠ some c) : Never c reads := by
  intro t ht
  cases hr : reads t with
  | none => rfl
  | some p =>
    obtain ⟨hne, happend⟩ := h hr
    refine absurd ?_ (hw t p.1 p.2 hr)
    rw [happend, List.head?_append_of_ne_nil _ hne] at ht
    exact ht

theorem never_exactly {s : Text} (hs : s ≠ []) (h : s.head? ≠ some c) : Never c (exactly s) := by
  refine never_of_takes (takes_exactly hs) ?_
  intro t w r hr
  obtain ⟨_, _, he⟩ := Option.map_eq_some_iff.1 hr
  cases he
  exact h

theorem never_word {s : String} (h : s.toList.head? ≠ some c) : Never c (word s) := by
  refine never_of_takes (takes_word s) ?_
  intro t w r hr
  obtain ⟨⟨v, u⟩, -, hr⟩ := Option.bind_eq_some_iff.1 hr
  dsimp only at hr
  split at hr
  · rename_i hw
    cases hr
    rwa [hw]
  · cases hr

theorem never_operator {s : Text} (h : s.head? ≠ some c) : Never c (operator s) := by
  refine never_of_takes (takes_operator s) ?_
  intro t w r hr
  obtain ⟨v, -, hr⟩ := Option.bind_eq_some_iff.1 hr
  split at hr
  · obtain ⟨_, _, he⟩ := Option.map_eq_some_iff.1 hr
    cases he
    exact h
  · cases hr

/-- The character can begin a name. -/
def startsName (c : Char) : Bool := c = '\\' || (isNameChar c && !c.isDigit)

theorem startsName_of_name {t w r : Text} (h : name t = some (w, r)) :
    ∃ d u, w = d :: u ∧ startsName d = true := by
  obtain ⟨⟨a, r'⟩, ha, he⟩ := Option.bind_eq_some_iff.1 h
  cases he
  unfold nameChar at ha
  split at ha
  · obtain ⟨p, -, he⟩ := Option.map_eq_some_iff.1 ha
    cases he
    exact ⟨'\\', _, rfl, rfl⟩
  · split at ha
    · rename_i d _ _ hd
      cases ha
      refine ⟨d, _, rfl, ?_⟩
      simp only [Bool.true_and] at hd
      rw [startsName, hd, Bool.or_true]
    · cases ha
  · cases ha

theorem never_name (h : startsName c = false) : Never c name := by
  refine never_of_takes takes_name ?_
  intro t w r hr hw
  obtain ⟨d, u, rfl, hd⟩ := startsName_of_name hr
  cases hw
  rw [h] at hd
  cases hd

theorem never_nameExcept (ws : List String) (h : startsName c = false) : Never c (nameExcept ws) := by
  intro t ht
  simp [nameExcept, never_name h t ht]

theorem never_privateName (h : c ≠ '#') : Never c privateName := by
  intro t ht
  have hmark : exactly ['#'] t = none := never_exactly (by simp) (by simpa using h.symm) t ht
  simp [privateName, andThen, hmark]

private theorem never_digits {p : Char → Bool} (h : p c = false) : Never c (digits p) := by
  intro t ht
  obtain ⟨u, rfl⟩ := List.head?_eq_some_iff.1 ht
  simp [digits, h]

theorem never_number (hdigit : c.isDigit = false) (hdot : c ≠ '.') : Never c number := by
  intro t ht
  have hzero : c ≠ '0' := by
    rintro rfl
    cases hdigit
  have hbased (letters : List Char) (p : Char → Bool) : basedNumber letters p t = none := by
    have : exactly ['0'] t = none := never_exactly (by simp) (by simpa using hzero.symm) t ht
    simp [basedNumber, andThen, this]
  have hpoint : exactly ['.'] t = none := never_exactly (by simp) (by simpa using hdot.symm) t ht
  have hdecimal : decimalNumber t = none := by
    simp [decimalNumber, never_digits hdigit t ht, andThen, hpoint]
  simp [number, hbased, hdecimal]

end Lexeme

/-! ### Rules -/

open Grammar (R Part)

namespace Rule

/-- The rule reads nothing where the text goes on with the character, and does not fit. -/
def Blocked (c : Char) (r : R) : Prop := ∀ N s s', s.At c → ¬ Runs N r s s'

/-- The rule leaves the text where it goes on with the character. -/
def Idle (c : Char) (r : R) : Prop := ∀ N s s', s.At c → Runs N r s s' → s'.At c

variable {c : Char} {a b : R}

theorem blocked_read {k : Leaf} {reads : Reads} (hc : isCodeStart c = true) (h : Never c reads) :
    Blocked c (read k reads) := by
  intro N s s' hs hrun
  obtain ⟨tok, htok⟩ := Reader.token_at hc hs hrun.step
  have hreads := htok.reads
  rw [h _ hs] at hreads
  cases hreads

theorem Blocked.seq (h : Blocked c a) : Blocked c (a ++ b) := by
  intro N s s' hs hrun
  obtain ⟨t, ha, -⟩ := hrun.seq
  exact h N s t hs ha

theorem Idle.seq (h : Idle c a) (hb : Blocked c b) : Blocked c (a ++ b) := by
  intro N s s' hs hrun
  obtain ⟨t, ha, hrun⟩ := hrun.seq
  exact hb N t s' (h N s t hs ha) hrun

theorem Idle.append (h : Idle c a) (h' : Idle c b) : Idle c (a ++ b) := by
  intro N s s' hs hrun
  obtain ⟨t, ha, hb⟩ := hrun.seq
  exact h' N t s' (h N s t hs ha) hb

theorem Blocked.orElse (h : Blocked c a) (h' : Blocked c b) : Blocked c (a <|> b) := by
  intro N s s' hs hrun
  rcases hrun.orElse with hrun | hrun
  · exact h N s s' hs hrun
  · exact h' N s s' hs hrun

theorem blocked_anyOf {rs : List R} (hne : rs ≠ []) (h : ∀ r ∈ rs, Blocked c r) :
    Blocked c (anyOf rs) := by
  intro N s s' hs hrun
  obtain ⟨r, hr, hrun⟩ := hrun.anyOf hne
  exact h r hr N s s' hs hrun

/-- Where all rules but the first are blocked, the first one is read. -/
theorem Runs.anyOf_head {rs : List R} {N : Nat} {s s' : Reader} (h : Runs N (Rule.anyOf (a :: rs)) s s')
    (hrs : ∀ r ∈ rs, Blocked c r) (hs : s.At c) : Runs N a s s' := by
  obtain ⟨r, hr, hrun⟩ := h.anyOf (by simp)
  rcases List.mem_cons.1 hr with rfl | hr
  · exact hrun
  · exact absurd hrun (hrs r hr N s s' hs)

theorem Blocked.present (h : Blocked c a) : Blocked c (present a ++ b) := by
  refine Blocked.seq ?_
  intro N s s' hs hrun
  obtain ⟨-, t, hrun⟩ := hrun.present
  exact h N s t hs hrun

theorem Blocked.part {p : Part} (h : Blocked c (grammar p)) : Blocked c (Grammar.part p) := by
  intro N s s' hs hrun
  obtain ⟨M, -, hrun⟩ := hrun.part
  exact h M s s' hs hrun

theorem idle_gap (hc : isCodeStart c = true) (g : Gap) : Idle c (gap g) := by
  intro N s s' hs hrun
  have hpasses := Reader.settle_at hc hs hrun.step
  rw [Reader.At, hpasses.rest]
  exact hs

theorem idle_opening : Idle c (step .opening) := by
  intro N s s' hs hrun
  cases hrun.step
  exact hs

theorem Blocked.node {k : Kind} (hc : isCodeStart c = true) (h : Blocked c a) : Blocked c (node k a) :=
  Blocked.seq (((idle_gap hc {}).append idle_opening).seq h)

end Rule

end ServerSplit.Js
