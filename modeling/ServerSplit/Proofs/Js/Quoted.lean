import ServerSplit.Proofs.Js.Yields

/-! Which texts can stand between the quotes of a literal. A text without quotes, backslashes and line feeds
is read up to its first carriage return or zero character; from there on it can be held only as blanks and
comments that end in it, each perhaps with more text behind it. -/
namespace ServerSplit.Js

open Grammar (R Part)

/-! ### Comments in a text that goes on -/

namespace Comment

/-- What follows the comment at the head of the text, if the comment ends in the text whatever follows it. -/
def behind? : Text → Option Text
  | '/' :: '*' :: r => (blockBody r).map (·.2)
  | '/' :: '/' :: r =>
    match r.dropWhile fun c => !endsLine c with
    | [] => none
    | c :: u => some (c :: u)
  | _ => none

theorem exists_of_behind? {t r : Text} (h : behind? t = some r) : ∃ w, w ≠ [] ∧ t = w ++ r := by
  have hread : ∃ w, read? t = some (w, r) := by
    unfold behind? at h
    split at h
    · obtain ⟨p, hp, rfl⟩ := Option.map_eq_some_iff.1 h
      exact ⟨'/' :: '*' :: p.1, by simp only [read?, hp, Option.map_some]⟩
    · split at h
      · cases h
      · rename_i hdrop
        cases h
        exact ⟨_, by simp only [read?, hdrop]; rfl⟩
    · cases h
  obtain ⟨w, hw⟩ := hread
  exact ⟨w, takes_read hw⟩

/-- What stands behind a quote closes no comment. -/
structure Unclosing (q : Char) (tail : Text) : Prop where
  slash : q ≠ '/'
  star : q ≠ '*'
  line : ∀ c ∈ q :: tail, endsLine c = false
  block : blockBody (q :: tail) = none

variable {q : Char} {tail : Text} (h : Unclosing q tail)
include h

/-- A block comment that is open at the quote stays open. -/
theorem blockBody_append (t : Text) :
    blockBody (t ++ q :: tail) = (blockBody t).map fun p => (p.1, p.2 ++ q :: tail) := by
  have further {c : Char} {r : Text} (hend : c = '*' → r = [] → False)
      (hclose : ∀ u, c = '*' → r = '/' :: u → False) :
      ∀ u, c = '*' → r ++ q :: tail = '/' :: u → False := by
    intro u hc hu
    cases r with
    | nil => exact hend hc rfl
    | cons d r =>
      cases hu
      exact hclose r hc rfl
  fun_induction blockBody t with
  | case1 => exact h.block
  | case2 =>
    rw [List.singleton_append, blockBody.eq_4 _ _ (by simp) (by simp [h.slash]), h.block]
    rfl
  | case3 r => simp [blockBody]
  | case4 c r hend hclose hnul =>
    rw [List.cons_append, blockBody.eq_4 _ _ (by simp) (further hend hclose)]
    simp [hnul]
  | case5 c r hend hclose hnul ih =>
    rw [List.cons_append, blockBody.eq_4 _ _ (by simp) (further hend hclose), ih]
    simp [hnul, Option.map_map, Function.comp_def]

theorem read?_quote : read? (q :: tail) = none := by
  unfold read?
  split
  · rename_i heq
    cases heq
    exact (h.slash rfl).elim
  · rename_i heq
    cases heq
    exact (h.slash rfl).elim
  · rfl

/-- A comment that ends before the quote is read as if nothing followed. -/
theorem read?_of_behind? {t r : Text} (ht : behind? t = some r) :
    ∃ w, read? (t ++ q :: tail) = some (w, r ++ q :: tail) := by
  unfold behind? at ht
  split at ht
  · obtain ⟨p, hp, rfl⟩ := Option.map_eq_some_iff.1 ht
    exact ⟨'/' :: '*' :: p.1, by simp only [List.cons_append, read?, blockBody_append h, hp, Option.map_some]⟩
  · split at ht
    · cases ht
    · rename_i hdrop
      cases ht
      exact ⟨_, by simp only [List.cons_append, read?, List.dropWhile_append, hdrop]; rfl⟩
  · cases ht

/-- Any other comment goes on to the end. -/
theorem read?_of_behind?_none {t : Text} (hne : t ≠ []) (ht : behind? t = none) {w r : Text}
    (hr : read? (t ++ q :: tail) = some (w, r)) : r = [] := by
  have hopen : (q :: tail).dropWhile (fun c => !endsLine c) = [] :=
    List.dropWhile_eq_nil_iff.2 fun c hc => by simp [h.line c hc]
  match t, hne with
  | [c], _ =>
    unfold read? at hr
    split at hr
    · rename_i heq
      cases heq
      exact (h.slash rfl).elim
    · rename_i heq
      cases heq
      exact (h.star rfl).elim
    · cases hr
  | c :: d :: u, _ =>
    simp only [List.cons_append] at hr
    unfold read? at hr
    split at hr
    · rename_i heq
      cases heq
      cases hr
      cases hdrop : u.dropWhile fun c => !endsLine c with
      | nil => rw [List.dropWhile_append, hdrop, List.isEmpty_nil, if_pos rfl, hopen]
      | cons e v => simp [behind?, hdrop] at ht
    · rename_i heq
      cases heq
      have hnone : blockBody u = none := by simpa [behind?] using ht
      simp only [blockBody_append h, hnone, Option.map_none] at hr
      cases hr
    · cases hr

end Comment

/-! ### What a literal can hold -/

namespace StringLiteral

/-- The character does not break a literal that holds it. -/
def isPlain (c : Char) : Bool := c != '\r' && !isNul c

/-- Whether a literal can hold the text, which has no quote, backslash or line feed in it. -/
def holds (t : Text) : Bool := go ('\n' :: t) t
where
  /-- The first text is longer than the number of comments. -/
  go : Text → Text → Bool
    | [], _ => false
    | _ :: n, t =>
      match (t.dropWhile isPlain).dropWhile isGap with
      | [] => true
      | c :: r =>
        match Comment.behind? (c :: r) with
        | some u => go n u
        | none => false

/-- A text with neither carriage returns nor zero characters is held. -/
theorem holds_of_plain {t : Text} (h : t.all isPlain = true) : holds t = true := by
  have hdrop : t.dropWhile isPlain = [] := List.dropWhile_eq_nil_iff.2 (List.all_eq_true.1 h)
  simp [holds, holds.go, hdrop]

end StringLiteral

/-! ### Reading a literal -/

namespace Reader

/-- A literal is open before the text: behind its first token there are tokens only, and no blank yet. -/
structure InLiteral (first : Token) (us : List (List Tree)) (t : Text) (s : Reader) : Prop where
  rest : s.rest = t
  blank : s.blank = []
  settled : s.settled = false
  closed : s.closed = false
  items : ∃ new : List Token, s.items = new.map .leaf ++ [.leaf first]
  outer : s.outer = us

theorem InLiteral.push {first : Token} {us : List (List Tree)} {s : Reader} (k : Leaf) (w r : Text)
    (hitems : ∃ new : List Token, s.items = new.map .leaf ++ [.leaf first]) (houter : s.outer = us)
    (hclosed : s.closed = false) : (s.push k w r).InLiteral first us r where
  rest := rfl
  blank := rfl
  settled := rfl
  closed := hclosed
  items := by
    obtain ⟨new, hnew⟩ := hitems
    exact ⟨⟨k, s.blank, w, s.offset⟩ :: new, by simp [Reader.push, hnew]⟩
  outer := houter

theorem comment?_inLiteral (s : Reader) :
    comment? .inLiteral s = (Comment.read? s.rest).map fun p => (.comment, p) := by
  simp only [comment?]
  cases Comment.read? s.rest <;> rfl

theorem comment_inLiteral (s : Reader) :
    s.comment .inLiteral =
      (Comment.read? (s.rest.dropWhile isGap)).map fun p => s.skipBlanks.push .comment p.1 p.2 := by
  change (comment? .inLiteral s.skipBlanks).map _ = _
  rw [comment?_inLiteral, Option.map_map]
  rfl

/-- Where no comment follows, the gap is blanks. -/
theorem settle_inLiteral {s : Reader} (hs : s.settled = false)
    (h : Comment.read? (s.rest.dropWhile isGap) = none) :
    s.settle .inLiteral = some { s.skipBlanks with settled := true } := by
  have hcomment : comment? .inLiteral s.skipBlanks = none := by
    rw [comment?_inLiteral, show s.skipBlanks.rest = s.rest.dropWhile isGap from rfl, h]
    rfl
  simp only [settle, hs, Bool.false_eq_true, if_false, settle.go, hcomment]
  rfl

end Reader

namespace Grammar
open Rule Reader StringLiteral

/-- What may stand between the quotes. -/
def stringPart (q : Char) : R :=
  anyOf [
    glued .stringFragment (Lexeme.stringFragment q),
    glued .escapeSequence Lexeme.escapeSequence,
    step (.comment .inLiteral)]

/-- A string in the given quotes. -/
def quoted (q : Char) : R :=
  node .string
    (read .mark (Lexeme.exactly [q]) ++ many (stringPart q) ++ gap .inLiteral ++
      read .mark (Lexeme.exactly [q]))

variable {q : Char} {tail : Text} {first : Token} {us : List (List Tree)} {s : Reader}

/-- The characters of a fragment. -/
def isFragment (q c : Char) : Bool := c != q && c != '\\' && c != '\r' && c != '\n' && !isNul c

theorem stringFragment_eq (q : Char) : Lexeme.stringFragment q = Lexeme.run (isFragment q) := rfl

/-- No fragment stands here: the text is at its end or at a quote, or breaks the literal. -/
def Broken (q : Char) (t : Text) : Prop := ∀ c, t.head? = some c → c = q ∨ isPlain c = false

/-- The text has no quote, backslash or line feed. -/
def Unescaped (q : Char) (t : Text) : Prop := ∀ c ∈ t, c ≠ q ∧ c ≠ '\\' ∧ c ≠ '\n'

theorem isFragment_eq {c : Char} (h : c ≠ q ∧ c ≠ '\\' ∧ c ≠ '\n') : isFragment q c = isPlain c := by
  obtain ⟨hq, hslash, hline⟩ := h
  rw [isFragment, isPlain, bne_iff_ne.2 hq, bne_iff_ne.2 hslash, bne_iff_ne.2 hline]
  simp only [Bool.true_and, Bool.and_true]

theorem isFragment_false {c : Char} (h : c = q ∨ isPlain c = false) : ¬ isFragment q c = true := by
  intro hc
  simp only [isFragment, Bool.and_eq_true, bne_iff_ne] at hc
  obtain ⟨⟨⟨⟨hq, -⟩, hbreak⟩, -⟩, hnul⟩ := hc
  rcases h with rfl | hplain
  · exact hq rfl
  · rw [isPlain, bne_iff_ne.2 hbreak, hnul] at hplain
    cases hplain

theorem Broken.stringFragment {t : Text} (h : Broken q t) : Lexeme.stringFragment q t = none := by
  rw [stringFragment_eq, Lexeme.run]
  cases t with
  | nil => rfl
  | cons c t => rw [List.takeWhile_cons_of_neg (isFragment_false (h c rfl))]

/-- A fragment is read up to where the text breaks it. -/
theorem stringFragment_append {f v : Text} (hne : f ≠ []) (hf : Unescaped q f) (hplain : ∀ c ∈ f, isPlain c = true)
    (hv : Broken q v) : Lexeme.stringFragment q (f ++ v) = some (f, v) := by
  have hin : ∀ c ∈ f, isFragment q c = true := fun c hc => (isFragment_eq (hf c hc)).trans (hplain c hc)
  have hcut : v.takeWhile (isFragment q) = [] ∧ v.dropWhile (isFragment q) = v := by
    cases v with
    | nil => exact ⟨rfl, rfl⟩
    | cons c v =>
      have hc := isFragment_false (hv c rfl)
      exact ⟨List.takeWhile_cons_of_neg hc, List.dropWhile_cons_of_neg hc⟩
  rw [stringFragment_eq, Lexeme.run, List.takeWhile_append_of_pos hin, List.dropWhile_append_of_pos hin, hcut.1,
    hcut.2, List.append_nil]
  cases f with
  | nil => exact (hne rfl).elim
  | cons c f => rfl

theorem stringPart_fragment {f v : Text} (hs : s.InLiteral first us (f ++ v))
    (hf : Lexeme.stringFragment q (f ++ v) = some (f, v)) :
    ∃ s', Yields 6 (stringPart q) s (some s') ∧ s'.InLiteral first us v ∧ s.offset < s'.offset := by
  refine ⟨{ s.push .stringFragment f v with closed := false }, ?_, ?_, ?_⟩
  · refine .left (.step ?_)
    simp [Step.run, take, hs.blank, hs.rest, hf]
  · exact { InLiteral.push (s := { s with closed := false }) .stringFragment f v hs.items hs.outer rfl with }
  · have := Text.size_pos (Lexeme.takes_stringFragment q hf).1
    change s.offset < s.offset + f.size
    omega

/-- Where the text breaks, only a comment can go on with the literal. -/
theorem stringPart_comment {t : Text} (hs : s.InLiteral first us t) (ht : Broken q t) (hq : q ≠ '\\') :
    Yields 6 (stringPart q) s (s.comment .inLiteral) := by
  have glued_none {k : Nat} {l : Leaf} {reads : Reads} (h : reads t = none) :
      Yields (k + 1) (glued l reads : R) s none :=
    .step (by simp [Step.run, take, hs.blank, hs.rest, h])
  have hescape : Lexeme.escapeSequence t = none := by
    unfold Lexeme.escapeSequence
    split
    · rcases ht _ rfl with h | h
      · exact (hq h.symm).elim
      · cases h
    · rfl
  exact .right (glued_none ht.stringFragment) (.right (glued_none hescape) (.step rfl))

/-- A comment is read as a part of the literal. -/
theorem stringPart_next {t w r : Text} (hs : s.InLiteral first us t) (ht : Broken q t) (hq : q ≠ '\\')
    (hread : Comment.read? (t.dropWhile isGap) = some (w, r)) :
    ∃ s', Yields 6 (stringPart q) s (some s') ∧ s'.InLiteral first us r ∧ s.offset < s'.offset := by
  refine ⟨s.skipBlanks.push .comment w r, ?_, ?_, ?_⟩
  · have := stringPart_comment hs ht hq
    rwa [comment_inLiteral, hs.rest, hread] at this
  · exact .push (s := s.skipBlanks) .comment w r hs.items hs.outer hs.closed
  · have := Text.size_pos (Comment.takes_read hread).1
    change s.offset < s.offset + Text.size (s.rest.takeWhile isGap) + w.size
    omega

/-- No more parts follow, and the closing quote does exactly if the literal is held. -/
structure Ends (first : Token) (us : List (List Tree)) (t : Text) (held : Bool) (s s' : Reader) : Prop where
  literal : s'.InLiteral first us s'.rest
  le : s.offset ≤ s'.offset
  comment : Comment.read? (s'.rest.dropWhile isGap) = none
  quote : if held then s'.rest.dropWhile isGap = t else (s'.rest.dropWhile isGap).head? ≠ t.head?

theorem Ends.trans {t : Text} {b : Bool} {s₀ s s' : Reader} (h : Ends first us t b s s')
    (hle : s₀.offset ≤ s.offset) : Ends first us t b s₀ s' := { h with le := Nat.le_trans hle h.le }

theorem stringParts_stop {t u : Text} {b : Bool} (hs : s.InLiteral first us t) (ht : Broken q t) (hq : q ≠ '\\')
    (hcomment : Comment.read? (t.dropWhile isGap) = none)
    (hquote : if b then t.dropWhile isGap = u else (t.dropWhile isGap).head? ≠ u.head?) :
    Yields 7 (many (stringPart q)) s (some s) ∧ Ends first us u b s s := by
  obtain rfl := hs.rest
  refine ⟨.many_stop ?_, hs, Nat.le_refl _, hcomment, hquote⟩
  have := stringPart_comment hs ht hq
  rwa [comment_inLiteral, hcomment] at this

/-- What is known of a quote and of the text behind it. -/
structure Closes (q : Char) (tail : Text) : Prop where
  unclosing : Comment.Unclosing q tail
  backslash : q ≠ '\\'
  gap : isGap q = false

theorem Closes.dropWhile (h : Closes q tail) (t : Text) :
    (t ++ q :: tail).dropWhile isGap = t.dropWhile isGap ++ q :: tail := by
  rw [List.dropWhile_append]
  split
  · rename_i hnil
    rw [List.isEmpty_iff.1 hnil, List.dropWhile_cons_of_neg (by simp [h.gap]), List.nil_append]
  · rfl

theorem Broken.append {v : Text} (hv : Broken q v) : Broken q (v ++ q :: tail) := by
  cases v with
  | nil =>
    intro c hc
    cases hc
    exact .inl rfl
  | cons d v => exact hv

theorem Broken.dropWhile {v : Text} (hv : Broken q v) (hplain : Unescaped q v) : v.dropWhile isPlain = v := by
  cases v with
  | nil => rfl
  | cons c v =>
    have hc := (hv c rfl).resolve_left (hplain c List.mem_cons_self).1
    exact List.dropWhile_cons_of_neg (by simp [hc])

/-- From where it breaks, a literal is read as long as comments follow that end in it. -/
theorem stringParts_broken (h : Closes q tail) {a : Char} {n v : Text} (hv : Unescaped q v) (hbroken : Broken q v)
    (ih : ∀ u s, u.length < v.length → Unescaped q u → s.InLiteral first us (u ++ q :: tail) →
      ∃ s', Yields (u.length + 12) (many (stringPart q)) s (some s') ∧
        Ends first us (q :: tail) (holds.go n u) s s') (hs : s.InLiteral first us (v ++ q :: tail)) :
    ∃ s', Yields (v.length + 12) (many (stringPart q)) s (some s') ∧
      Ends first us (q :: tail) (holds.go (a :: n) v) s s' := by
  have hbroken' : Broken q (v ++ q :: tail) := hbroken.append
  have hdrop := h.dropWhile v
  simp only [holds.go, hbroken.dropWhile hv]
  cases hgap : v.dropWhile isGap with
  | nil =>
    rw [hgap, List.nil_append] at hdrop
    obtain ⟨hstop, hends⟩ := stringParts_stop (b := true) (u := q :: tail) hs hbroken' h.backslash
      (by rw [hdrop]; exact Comment.read?_quote h.unclosing) (by rw [hdrop]; rfl)
    exact ⟨s, hstop.mono (by omega), hends⟩
  | cons c r =>
    have hsub : ∀ d ∈ c :: r, d ∈ v := fun d hd => (List.dropWhile_suffix isGap).subset (hgap ▸ hd)
    have hlength : (c :: r).length ≤ v.length := hgap ▸ (List.dropWhile_suffix isGap).length_le
    rw [hgap] at hdrop
    dsimp only
    cases hbehind : Comment.behind? (c :: r) with
    | some u =>
      obtain ⟨w', hw', hsplit⟩ := Comment.exists_of_behind? hbehind
      have hshort : u.length < (c :: r).length := by
        have := List.length_pos_iff.2 hw'
        rw [hsplit, List.length_append]
        omega
      have hu : Unescaped q u := fun d hd => hv d (hsub d (hsplit ▸ List.mem_append_right w' hd))
      obtain ⟨w, hread⟩ := Comment.read?_of_behind? h.unclosing hbehind
      obtain ⟨s₁, hpart, hs₁, hlt⟩ := stringPart_next hs hbroken' h.backslash (hdrop ▸ hread)
      obtain ⟨s', hmany, hends⟩ := ih u s₁ (by omega) hu hs₁
      exact ⟨s', .many_next (hpart.mono (by omega)) hlt (hmany.mono (by omega)), hends.trans (Nat.le_of_lt hlt)⟩
    | none =>
      cases hread : Comment.read? (c :: r ++ q :: tail) with
      | none =>
        have hne : c ≠ q := (hv c (hsub c List.mem_cons_self)).1
        obtain ⟨hstop, hends⟩ := stringParts_stop (b := false) (u := q :: tail) hs hbroken' h.backslash
          (by rw [hdrop, hread]) (by simpa [hdrop] using hne)
        exact ⟨s, hstop.mono (by omega), hends⟩
      | some p =>
        -- The comment takes up the quote and all that follows.
        obtain ⟨w, r'⟩ := p
        obtain rfl := Comment.read?_of_behind?_none h.unclosing (by simp) hbehind hread
        obtain ⟨s₁, hpart, hs₁, hlt⟩ := stringPart_next hs hbroken' h.backslash (hdrop ▸ hread)
        obtain ⟨hstop, hends⟩ := stringParts_stop (b := false) (q := q) (u := q :: tail) hs₁
          (fun _ hc => nomatch hc) h.backslash rfl (by simp)
        exact ⟨s₁, .many_next (hpart.mono (by omega)) hlt (hstop.mono (by omega)), hends.trans (Nat.le_of_lt hlt)⟩

/-- All parts of a literal are read, and its quote follows if it is held. -/
theorem stringParts_yield (h : Closes q tail) {n u : Text} (hn : u.length < n.length) (hu : Unescaped q u)
    (hs : s.InLiteral first us (u ++ q :: tail)) :
    ∃ s', Yields (u.length + 12) (many (stringPart q)) s (some s') ∧
      Ends first us (q :: tail) (holds.go n u) s s' := by
  induction n generalizing u s with
  | nil => cases hn
  | cons a n ih =>
    obtain ⟨f, v, hf, hv⟩ : ∃ f v, u.takeWhile isPlain = f ∧ u.dropWhile isPlain = v := ⟨_, _, rfl, rfl⟩
    have hsplit : u = f ++ v := by rw [← hf, ← hv, List.takeWhile_append_dropWhile]
    have hbroken : Broken q v := by
      intro c hc
      have := List.head?_dropWhile_not isPlain u
      rw [hv, hc] at this
      exact .inr this
    have hplain : Unescaped q v := fun c hc => hu c (hsplit ▸ List.mem_append_right f hc)
    have hheld : holds.go (a :: n) u = holds.go (a :: n) v := by
      simp only [holds.go, hv, hbroken.dropWhile hplain]
    have hlength : u.length = f.length + v.length := by rw [hsplit, List.length_append]
    have behind {s : Reader} := stringParts_broken (s := s) (a := a) h hplain hbroken
      fun u' s' hu' hplain' hs' => ih (by simp only [List.length_cons] at hn; omega) hplain' hs'
    rw [hheld]
    by_cases hne : f = []
    · rw [hsplit, hne, List.nil_append] at hs ⊢
      exact behind hs
    · rw [hsplit, List.append_assoc] at hs
      have hfragment := stringFragment_append (v := v ++ q :: tail) hne
        (fun c hc => hu c (hsplit ▸ List.mem_append_left v hc))
        (by rw [← hf]; exact fun c => List.mem_takeWhile_imp) hbroken.append
      obtain ⟨s₁, hpart, hs₁, hlt⟩ := stringPart_fragment hs hfragment
      obtain ⟨s', hmany, hends⟩ := behind hs₁
      have := List.length_pos_iff.2 hne
      exact ⟨s', .many_next (hpart.mono (by omega)) hlt (hmany.mono (by omega)), hends.trans (Nat.le_of_lt hlt)⟩

/-- The reader behind a literal that ends at a byte and consists of the tokens. -/
def behindLiteral (s : Reader) (tail : Text) (p : Nat × List Token) : Reader :=
  { rest := tail, offset := p.1, items := .node .string (p.2.map .leaf) :: s.items, outer := s.outer }

/-- A literal is read if the text can be held, and else nothing is. -/
theorem quoted_yields (h : Closes q tail) {b d : Text} (hd : Unescaped q d)
    (hs : s.Ready b (q :: (d ++ q :: tail))) :
    ∃ o : Option (Nat × List Token), o.isSome = holds d ∧
      (∀ p ∈ o, s.offset < p.1 ∧ p.2.head? = some ⟨.mark, b, [q], s.offset⟩) ∧
      Yields (d.length + 20) (quoted q) s (o.map (behindLiteral s tail)) := by
  have hquote (r : Text) : Lexeme.exactly [q] (q :: r) = some ([q], r) := by simp [Lexeme.exactly, Text.after]
  let s₁ : Reader := { s.opened.push .mark [q] (d ++ q :: tail) with closed := false }
  have hopen : (Step.token .mark (Lexeme.exactly [q])).run s.opened = some s₁ := hs.opened.token .mark (hquote _)
  have hs₁ : s₁.InLiteral ⟨.mark, b, [q], s.offset⟩ (s.items :: s.outer) (d ++ q :: tail) := by
    refine ⟨rfl, rfl, rfl, rfl, ⟨[], ?_⟩, rfl⟩
    simp [s₁, Reader.push, opened, hs.blank]
  obtain ⟨s₂, hparts, hends⟩ := stringParts_yield h (n := '\n' :: d) (Nat.lt_succ_self d.length) hd hs₁
  have hsettle := settle_inLiteral hends.literal.settled hends.comment
  have hbefore : Yields (d.length + 14)
      (read .mark (Lexeme.exactly [q]) ++ many (stringPart q) ++ gap .inLiteral) s.opened _ :=
    .seq (.seq (.step hopen) hparts) (.step hsettle)
  obtain ⟨hliteral, hle, -, hquoted⟩ := hends
  obtain ⟨new, hnew⟩ := hliteral.items
  cases hheld : holds d with
  | true =>
    have hrest : s₂.rest.dropWhile isGap = q :: tail := by
      rw [holds] at hheld
      rwa [hheld] at hquoted
    let s₃ : Reader := { s₂.skipBlanks with settled := true }
    have hready : s₃.Ready s₃.blank (q :: tail) := ⟨rfl, rfl, hrest⟩
    have hclose := hready.token .mark (hquote tail)
    let close : Token := ⟨.mark, s₃.blank, [q], s₃.offset⟩
    let ts : List Token := ⟨.mark, b, [q], s.offset⟩ :: new.reverse ++ [close]
    refine ⟨some (s₃.offset + Text.size [q], ts), rfl, ?_, ?_⟩
    · intro p hp
      cases hp
      refine ⟨?_, rfl⟩
      have hsize : 0 < Text.size [q] := Text.size_pos (by simp)
      change s.offset < s₂.offset + Text.size (s₂.rest.takeWhile isGap) + Text.size [q]
      change s.offset + Text.size [q] ≤ s₂.offset at hle
      omega
    · refine .node (hs.settle {}) (.seq (hbefore.mono (by omega)) (.step hclose)) ?_
      have houter : s₂.outer = s.items :: s.outer := hliteral.outer
      simp [Step.run, Reader.push, behindLiteral, s₃, Reader.skipBlanks, houter, hnew, ts, close]
  | false =>
    refine ⟨none, rfl, by simp, .node_none (hs.settle {}) (.seq (hbefore.mono (by omega)) ?_)⟩
    rw [holds] at hheld
    simp only [hheld, Bool.false_eq_true, if_false] at hquoted
    refine Stuck.yields (t := s₂.rest.dropWhile isGap) (stuck_read ?_) ⟨rfl, rfl, rfl⟩
    cases hrest : s₂.rest.dropWhile isGap with
    | nil => rfl
    | cons c r =>
      have hne : q ≠ c := by simpa [hrest, eq_comm] using hquoted
      simp [Lexeme.exactly, Text.after, hne]

theorem quoted_stuck {b t : Text} (ht : Lexeme.exactly [q] t = none) : Stuck b t (quoted q) :=
  .node (Stuck.seq (Stuck.seq (Stuck.seq (stuck_read ht))))

theorem string_stuck {b t : Text} (hdouble : Lexeme.exactly ['"'] t = none)
    (hsingle : Lexeme.exactly ['\''] t = none) :
    Stuck b t string := .orElse (quoted_stuck hdouble) (quoted_stuck hsingle)

/-- A string is read from its quote on if its text can be held. -/
theorem string_yields (hq : q = '"' ∨ q = '\'') (h : Closes q tail) {b d : Text} (hd : Unescaped q d)
    (hs : s.Ready b (q :: (d ++ q :: tail))) :
    ∃ o : Option (Nat × List Token), o.isSome = holds d ∧
      (∀ p ∈ o, s.offset < p.1 ∧ p.2.head? = some ⟨.mark, b, [q], s.offset⟩) ∧
      Yields (d.length + 21) string s (o.map (behindLiteral s tail)) := by
  obtain ⟨o, hheld, ho, hyields⟩ := quoted_yields h hd hs
  refine ⟨o, hheld, ho, ?_⟩
  rcases hq with rfl | rfl
  · cases o with
    | some p => exact .left hyields
    | none => exact .right hyields ((quoted_stuck rfl).yields hs)
  · exact .right ((quoted_stuck rfl).yields hs) hyields

end Grammar

end ServerSplit.Js
