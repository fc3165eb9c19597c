import Mathlib.Data.List.Chain
import Mathlib.Data.List.TakeWhile
import ServerSplit.Js.Lexeme
import ServerSplit.Text.Digits

/-! What a string literal stands for. Its body is read in parts, each escape as the longest that can be read, and
its value is the row of the code units of the parts. The parts of a body that are written one behind another are
read as these parts again, but for octal escapes that take up a digit behind them. -/
namespace ServerSplit.Js

open Lexeme

/-- A part of the body of a string literal: a character that stands for itself, or an escape, with the character
behind the backslash apart. -/
inductive Piece
  | plain (c : Char)
  | escape (c : Char) (rest : Text)
  deriving Repr, DecidableEq

namespace Piece

def text : Piece → Text
  | .plain c => [c]
  | .escape c w => '\\' :: c :: w

/-! ### Reading -/

/-- How many digits an octal escape may have behind its first one, if it is to stand for a byte. -/
def octalRoom (c : Char) : Nat := if c ≤ '3' then 2 else 1

/-- A code point behind `u`: four digits, or any number of them between braces. -/
def codePoint? : Text → Option Text
  | '\x7b' :: r =>
    let w := r.takeWhile isHexDigit
    if (Text.toNat? 16 w).any (· < 0x110000) && (r.dropWhile isHexDigit).head? = some '\x7d' then
      some ('\x7b' :: w ++ ['\x7d'])
    else none
  | r => (count 4 isHexDigit r).map (·.1)

/-- What belongs to an escape behind its first character. -/
def rest? (c : Char) (t : Text) : Option Text :=
  if c = '\r' then some (if t.head? = some '\n' then ['\n'] else [])
  else if isOctalDigit c then some ((t.take (octalRoom c)).takeWhile isOctalDigit)
  else if c = 'x' then (count 2 isHexDigit t).map (·.1)
  else if c = 'u' then codePoint? t
  else some []

/-- The part at the head of a body that ends with the quote, and what follows it. -/
def read? (quote : Char) : Text → Option (Piece × Text)
  | '\\' :: c :: r => (rest? c r).map fun w => (.escape c w, r.drop w.length)
  | c :: r => if c = '\\' ∨ c = quote ∨ c = '\n' ∨ c = '\r' then none else some (.plain c, r)
  | [] => none

/-! ### Values -/

/-- The code units of a code point. -/
def utf16 (n : Nat) : List UInt16 :=
  if n < 0x10000 then [n.toUInt16]
  else [(0xD800 + (n - 0x10000) / 0x400).toUInt16, (0xDC00 + (n - 0x10000) % 0x400).toUInt16]

/-- The character that an escape of one character stands for. -/
def named (c : Char) : Char :=
  if c = 'b' then '\x08'
  else if c = 't' then '\t'
  else if c = 'n' then '\n'
  else if c = 'v' then '\x0b'
  else if c = 'f' then '\x0c'
  else if c = 'r' then '\r'
  else c

/-- What a part stands for; the end of a line stands for nothing. -/
def units : Piece → List UInt16
  | .plain c => utf16 c.toNat
  | .escape c w =>
    if c = '\r' || isLineEnd c then []
    else if isOctalDigit c then [((Text.toNat? 8 (c :: w)).getD 0).toUInt16]
    else if c = 'x' || c = 'u' then utf16 ((Text.toNat? 16 (w.filter isHexDigit)).getD 0)
    else utf16 (named c).toNat

/-! ### Escapes -/

/-- How a code point may be written. -/
inductive CodePoint : Text → Prop
  | four {w : Text} (hlength : w.length = 4) (hall : w.all isHexDigit = true) : CodePoint w
  | braced {ds : Text} (hall : ds.all isHexDigit = true) (hvalue : (Text.toNat? 16 ds).any (· < 0x110000) = true) :
    CodePoint ('\x7b' :: ds ++ ['\x7d'])

/-- What may belong to an escape behind its first character. -/
def Belongs (c : Char) (w : Text) : Prop :=
  if c = '\r' then w = [] ∨ w = ['\n']
  else if isOctalDigit c then w.length ≤ octalRoom c ∧ w.all isOctalDigit = true
  else if c = 'x' then w.length = 2 ∧ w.all isHexDigit = true
  else if c = 'u' then CodePoint w
  else w = []

theorem count_eq_some {n : Nat} {p : Char → Bool} {t w : Text} (h : (count n p t).map (·.1) = some w) :
    w.length = n ∧ w.all p = true ∧ w <+: t := by
  unfold count at h
  simp only [Option.map_if, Option.ite_none_right_eq_some, Option.some.injEq, Bool.and_eq_true,
    decide_eq_true_eq] at h
  obtain ⟨⟨hlength, hall⟩, rfl⟩ := h
  exact ⟨hlength, hall, List.take_prefix n t⟩

theorem count_append {n : Nat} {p : Char → Bool} {w : Text} (hlength : w.length = n) (hall : w.all p = true)
    (t : Text) : (count n p (w ++ t)).map (·.1) = some w := by
  subst hlength
  simp [count, hall]

theorem codePoint?_eq_some {t w : Text} (h : codePoint? t = some w) : CodePoint w ∧ w <+: t := by
  unfold codePoint? at h
  split at h
  · rename_i r
    dsimp only at h
    split at h
    · rename_i hds
      cases h
      simp only [Bool.and_eq_true, decide_eq_true_eq] at hds
      obtain ⟨after, hafter⟩ := List.head?_eq_some_iff.1 hds.2
      have hsplit := List.takeWhile_append_dropWhile (p := isHexDigit) (l := r)
      rw [hafter] at hsplit
      exact ⟨.braced List.all_takeWhile hds.1, after, by simpa using hsplit⟩
    · cases h
  · obtain ⟨hlength, hall, hprefix⟩ := count_eq_some h
    exact ⟨.four hlength hall, hprefix⟩

theorem codePoint?_append {w : Text} (h : CodePoint w) (t : Text) : codePoint? (w ++ t) = some w := by
  cases h with
  | @braced ds hall hvalue =>
    have hds : (ds ++ '\x7d' :: t).takeWhile isHexDigit = ds := by
      rw [List.takeWhile_append_of_pos (List.all_eq_true.1 hall)]
      simp [isHexDigit]
    have hafter : (ds ++ '\x7d' :: t).dropWhile isHexDigit = '\x7d' :: t := by
      rw [List.dropWhile_append_of_pos (List.all_eq_true.1 hall)]
      simp [isHexDigit]
    simp only [List.cons_append, List.append_assoc, List.nil_append, codePoint?, hds, hafter, hvalue,
      List.head?_cons, Bool.true_and, decide_true, if_true]
  | four hlength hall =>
    unfold codePoint?
    split
    · rename_i he
      match w, hlength with
      | c :: w, _ =>
        obtain rfl : c = '\x7b' := (List.cons.inj he).1
        simp [isHexDigit] at hall
    · exact count_append hlength hall t

theorem rest?_eq_some {c : Char} {t w : Text} (h : rest? c t = some w) : Belongs c w ∧ w <+: t := by
  unfold rest? at h
  unfold Belongs
  split at h
  · rename_i hc
    rw [if_pos hc]
    cases h
    split
    · rename_i hhead
      obtain ⟨after, rfl⟩ := List.head?_eq_some_iff.1 hhead
      exact ⟨.inr rfl, after, rfl⟩
    · exact ⟨.inl rfl, List.nil_prefix⟩
  · rename_i hc
    rw [if_neg hc]
    split at h
    · rename_i hoctal
      cases h
      rw [if_pos hoctal]
      refine ⟨⟨?_, List.all_takeWhile⟩, (List.takeWhile_prefix _).trans (List.take_prefix _ t)⟩
      exact (List.takeWhile_prefix _).length_le.trans (List.length_take_le _ t)
    · rename_i hoctal
      rw [if_neg hoctal]
      split at h
      · rename_i hx
        obtain ⟨hlength, hall, hprefix⟩ := count_eq_some h
        rw [if_pos hx]
        exact ⟨⟨hlength, hall⟩, hprefix⟩
      · rename_i hx
        rw [if_neg hx]
        split at h
        · rename_i hu
          rw [if_pos hu]
          exact codePoint?_eq_some h
        · rename_i hu
          cases h
          rw [if_neg hu]
          exact ⟨rfl, List.nil_prefix⟩

/-- An escape can be read wherever no further digit belongs to it. -/
theorem rest?_append {c : Char} {w t : Text} (hc : c ≠ '\r') (h : Belongs c w)
    (ht : isOctalDigit c = true → w.length < octalRoom c → t.head?.any isOctalDigit = false) :
    rest? c (w ++ t) = some w := by
  unfold Belongs at h
  unfold rest?
  rw [if_neg hc] at h ⊢
  split at h
  · rename_i hoctal
    obtain ⟨hlength, hall⟩ := h
    rw [if_pos hoctal, List.take_append, List.take_of_length_le hlength,
      List.takeWhile_append_of_pos (List.all_eq_true.1 hall)]
    have hnone : (t.take (octalRoom c - w.length)).takeWhile isOctalDigit = [] := by
      cases t with
      | nil => simp
      | cons d t =>
        cases hroom : octalRoom c - w.length with
        | zero => rfl
        | succ n => simpa using ht hoctal (by omega)
    rw [hnone, List.append_nil]
  · rename_i hoctal
    rw [if_neg hoctal]
    split at h
    · rename_i hx
      rw [if_pos hx]
      exact count_append h.1 h.2 t
    · rename_i hx
      rw [if_neg hx]
      split at h
      · rename_i hu
        rw [if_pos hu]
        exact codePoint?_append h t
      · rename_i hu
        rw [if_neg hu, h]

theorem notMem_of_belongs {c : Char} {w : Text} (h : Belongs c w) : '\\' ∉ w := by
  have hdigits : ∀ {p : Char → Bool}, p '\\' = false → w.all p = true → '\\' ∉ w := by
    intro p hp hall hmem
    rw [List.all_eq_true.1 hall _ hmem] at hp
    cases hp
  unfold Belongs at h
  split at h
  · rcases h with rfl | rfl <;> simp
  · split at h
    · exact hdigits (by decide) h.2
    · split at h
      · exact hdigits (by decide) h.2
      · split at h
        · cases h with
          | four hlength hall => exact hdigits (by decide) hall
          | braced hall hvalue =>
            have hnot : '\\' ∉ _ := fun hmem => absurd (List.all_eq_true.1 hall _ hmem) (by decide)
            simp [hnot]
        · simp [h]

/-! ### Parts one behind another -/

/-- A part as it can stand in a body with the given quote. -/
inductive Stands (quote : Char) : Piece → Prop
  | plain {c : Char} (h : ¬ (c = '\\' ∨ c = quote ∨ c = '\n' ∨ c = '\r')) : Stands quote (.plain c)
  | escape {c : Char} {w : Text} (h : Belongs c w) : Stands quote (.escape c w)

/-- An escaped line feed or carriage return, or both. -/
def breaksLine : Piece → Bool
  | .plain _ => false
  | .escape c _ => c = '\n' || c = '\r'

/-- Whether a character behind a part would belong to it. -/
def takesUp : Piece → Char → Bool
  | .plain _, _ => false
  | .escape c w, d => isOctalDigit c && decide (w.length < octalRoom c) && isOctalDigit d

theorem read?_eq_some {quote : Char} {t r : Text} {p : Piece} (h : read? quote t = some (p, r)) :
    p.Stands quote ∧ t = p.text ++ r := by
  unfold read? at h
  split at h
  · obtain ⟨w, hw, h⟩ := Option.map_eq_some_iff.1 h
    cases h
    obtain ⟨hbelongs, after, rfl⟩ := rest?_eq_some hw
    exact ⟨.escape hbelongs, by simp [text]⟩
  · split at h
    · cases h
    · rename_i hc
      cases h
      exact ⟨.plain hc, rfl⟩
  · cases h

/-- A part can be read wherever what follows does not belong to it. -/
theorem read?_append {quote : Char} {p : Piece} {t : Text} (h : p.Stands quote) (hp : p.breaksLine = false)
    (ht : t.head?.any p.takesUp = false) : read? quote (p.text ++ t) = some (p, t) := by
  cases h with
  | @plain c hc =>
    have hslash : c ≠ '\\' := fun he => hc (.inl he)
    simpa [text, read?, hslash] using hc
  | @escape c w hbelongs =>
    have hcr : c ≠ '\r' := by
      rintro rfl
      simp [breaksLine] at hp
    have hrest : rest? c (w ++ t) = some w := by
      refine rest?_append hcr hbelongs fun hoctal hroom => ?_
      cases t with
      | nil => rfl
      | cons d t => simpa [takesUp, hoctal, hroom] using ht
    simp [text, read?, hrest]

/-- Whether a part takes up the one behind it. -/
def joins (p : Piece) : Piece → Bool
  | .plain d => p.takesUp d
  | .escape _ _ => false

/-- A part with the character of the one behind it. -/
def longer : Piece → Piece → Piece
  | .escape c w, .plain d => .escape c (w ++ [d])
  | p, _ => p

theorem exists_of_joins {p q : Piece} (h : p.joins q = true) :
    ∃ c w d, p = .escape c w ∧ q = .plain d ∧ isOctalDigit c = true ∧ w.length < octalRoom c ∧
      isOctalDigit d = true := by
  cases p with
  | plain c => cases q <;> cases h
  | escape c w =>
    cases q with
    | escape d v => cases h
    | plain d =>
      simp only [joins, takesUp, Bool.and_eq_true, decide_eq_true_eq] at h
      exact ⟨c, w, d, rfl, rfl, h.1.1, h.1.2, h.2⟩

theorem breaksLine_longer (p q : Piece) : (p.longer q).breaksLine = p.breaksLine := by
  cases p <;> cases q <;> rfl

theorem text_longer {p q : Piece} (h : p.joins q = true) : (p.longer q).text = p.text ++ q.text := by
  obtain ⟨c, w, d, rfl, rfl, -⟩ := exists_of_joins h
  rfl

theorem stands_longer {quote : Char} {p q : Piece} (h : p.joins q = true) (hp : p.Stands quote) :
    (p.longer q).Stands quote := by
  obtain ⟨c, w, d, rfl, rfl, hc, hw, hd⟩ := exists_of_joins h
  cases hp with
  | escape hbelongs =>
    refine .escape ?_
    have hcr : c ≠ '\r' := by
      rintro rfl
      cases hc
    unfold Belongs at hbelongs ⊢
    rw [if_neg hcr, if_pos hc] at hbelongs ⊢
    exact ⟨by simpa using Nat.succ_le_of_lt hw, by simpa [hd] using hbelongs.2⟩

theorem length_units_octal {c : Char} (hc : isOctalDigit c = true) (w : Text) : (units (.escape c w)).length = 1 := by
  have hline : (c = '\r' || isLineEnd c) = false := by
    by_contra h
    simp only [isLineEnd, isLineSeparator, Bool.or_eq_true, Bool.not_eq_false, decide_eq_true_eq] at h
    rcases h with rfl | rfl | rfl | rfl <;> cases hc
  rw [units, hline, if_neg Bool.false_ne_true, if_pos hc]
  rfl

theorem units_plain_ne_nil (c : Char) : units (.plain c) ≠ [] := by
  rw [units, utf16]
  split <;> simp

/-- A digit that is taken up stands for nothing of its own. -/
theorem length_units_longer {p q : Piece} (h : p.joins q = true) :
    (p.longer q).units.length < p.units.length + q.units.length := by
  obtain ⟨c, w, d, rfl, rfl, hc, -⟩ := exists_of_joins h
  have hd := List.length_pos_iff.2 (units_plain_ne_nil d)
  simp only [longer, length_units_octal hc]
  omega

/-- The first character of a part does not belong to the part before it, unless it is taken up. -/
theorem takesUp_text {p q : Piece} (h : p.joins q = false) (t : Text) : (q.text ++ t).head?.any p.takesUp = false := by
  cases q with
  | plain d => exact h
  | escape c w =>
    cases p with
    | plain d => rfl
    | escape d v => simp [text, takesUp, isOctalDigit]

theorem text_ne_nil (p : Piece) : p.text ≠ [] := by cases p <;> simp [text]

theorem Stands.text_ne_quote {quote : Char} {p : Piece} (h : p.Stands quote) : p.text ≠ [quote] := by
  cases h with
  | plain hc =>
    intro he
    exact hc (.inr (.inl (List.head_eq_of_cons_eq he)))
  | escape => simp [text]

end Piece

namespace StringLiteral

/-- The parts of a body up to the quote that ends it; `n` is more than their number. -/
def body? (quote : Char) : Nat → Text → Option (List Piece)
  | 0, _ => none
  | n + 1, t =>
    if t = [quote] then some []
    else do
      let (p, r) ← Piece.read? quote t
      let ps ← body? quote n r
      return p :: ps

/-- The parts of a whole literal. -/
def pieces? : Text → Option (List Piece)
  | q :: r => if q = '"' ∨ q = '\'' then body? q r.length r else none
  | [] => none

/-- The parts that are read where parts stand one behind another. -/
def rereadFrom (p : Piece) : List Piece → List Piece
  | [] => [p]
  | q :: qs => if p.joins q then rereadFrom (p.longer q) qs else p :: rereadFrom q qs

def reread : List Piece → List Piece
  | [] => []
  | p :: ps => rereadFrom p ps

def valueOf (ps : List Piece) : List UInt16 := ps.flatMap Piece.units

/-- The value of a literal, if the text is one. -/
def value? (t : Text) : Option (List UInt16) := (pieces? t).map valueOf

example : value? "'a\\0018\\x41\\u\x7b1f600\x7d\\\n'".toList = some [97, 1, 56, 65, 0xd83d, 0xde00] := by decide

/-! ### Texts of parts -/

variable {quote : Char}

theorem body?_eq_some {n : Nat} {t : Text} {ps : List Piece} (h : body? quote n t = some ps) :
    (∀ p ∈ ps, p.Stands quote) ∧ t = ps.flatMap Piece.text ++ [quote] := by
  induction n generalizing t ps with
  | zero => cases h
  | succ n ih =>
    unfold body? at h
    split at h
    · rename_i ht
      cases h
      exact ⟨by simp, ht⟩
    · obtain ⟨⟨p, r⟩, hread, h⟩ := Option.bind_eq_some_iff.1 h
      obtain ⟨qs, hqs, h⟩ := Option.bind_eq_some_iff.1 h
      cases h
      obtain ⟨hp, rfl⟩ := Piece.read?_eq_some hread
      obtain ⟨hrest, rfl⟩ := ih hqs
      exact ⟨List.forall_mem_cons.2 ⟨hp, hrest⟩, by simp⟩

theorem length_le_texts (ps : List Piece) : ps.length ≤ (ps.flatMap Piece.text).length := by
  induction ps with
  | nil => exact Nat.le_refl _
  | cons p ps ih =>
    have htext := List.length_pos_iff.2 p.text_ne_nil
    simp only [List.flatMap_cons, List.length_append, List.length_cons]
    omega

theorem body?_append {n : Nat} {p : Piece} {t : Text} (h : p.Stands quote) (hp : p.breaksLine = false)
    (ht : t.head?.any p.takesUp = false) : body? quote (n + 1) (p.text ++ t) = (body? quote n t).map (p :: ·) := by
  have hquote : p.text ++ t ≠ [quote] := by
    intro he
    rcases List.append_eq_singleton_iff.1 he with ⟨hnil, -⟩ | ⟨htext, -⟩
    · exact Piece.text_ne_nil p hnil
    · exact h.text_ne_quote htext
  rw [body?, if_neg hquote, Piece.read?_append h hp ht, Option.map_eq_bind]
  rfl

/-- Of parts that stand one behind another, those that take up a digit are read with it. -/
theorem body?_rereadFrom (hquote : isOctalDigit quote = false) {p : Piece} {ps : List Piece} {n : Nat}
    (h : ∀ x ∈ p :: ps, x.Stands quote ∧ x.breaksLine = false) (hn : ps.length + 1 < n) :
    body? quote n ((p :: ps).flatMap Piece.text ++ [quote]) = some (rereadFrom p ps) := by
  induction ps generalizing p n with
  | nil =>
    obtain ⟨m, rfl⟩ : ∃ m, n = m + 2 := ⟨n - 2, by simp at hn; omega⟩
    obtain ⟨hp, hline⟩ := h p (by simp)
    have hend : [quote].head?.any p.takesUp = false := by
      cases p <;> simp [Piece.takesUp, hquote]
    rw [List.flatMap_cons, List.append_assoc, List.flatMap_nil, List.nil_append, body?_append hp hline hend]
    simp [body?, rereadFrom]
  | cons q ps ih =>
    obtain ⟨⟨hp, hline⟩, hrest⟩ := List.forall_mem_cons.1 h
    rw [rereadFrom]
    cases hjoins : p.joins q with
    | true =>
      -- in the text the part and the digit are one part already
      have hlonger : (p :: q :: ps).flatMap Piece.text = (p.longer q :: ps).flatMap Piece.text := by
        simp [Piece.text_longer hjoins]
      rw [hlonger, if_pos rfl]
      refine ih (List.forall_mem_cons.2 ⟨⟨Piece.stands_longer hjoins hp, ?_⟩, fun x hx => hrest x (by simp [hx])⟩)
        (by simp at hn; omega)
      rw [Piece.breaksLine_longer, hline]
    | false =>
      obtain ⟨m, rfl⟩ : ∃ m, n = m + 1 := ⟨n - 1, by omega⟩
      rw [List.flatMap_cons, List.append_assoc, if_neg Bool.false_ne_true]
      have hnext : ((q :: ps).flatMap Piece.text ++ [quote]).head?.any p.takesUp = false := by
        rw [List.flatMap_cons, List.append_assoc]
        exact Piece.takesUp_text hjoins _
      rw [body?_append hp hline hnext, ih hrest (by simp at hn; omega)]
      rfl

theorem body?_reread (hquote : isOctalDigit quote = false) {ps : List Piece} {n : Nat}
    (h : ∀ x ∈ ps, x.Stands quote ∧ x.breaksLine = false) (hn : ps.length < n) :
    body? quote n (ps.flatMap Piece.text ++ [quote]) = some (reread ps) := by
  cases ps with
  | nil =>
    obtain ⟨m, rfl⟩ : ∃ m, n = m + 1 := ⟨n - 1, by simp at hn; omega⟩
    simp [body?, reread]
  | cons p ps => exact body?_rereadFrom hquote h hn

/-! ### Values of parts -/

/-- Parts of which none takes up the one behind it. -/
def Apart (ps : List Piece) : Prop := ps.IsChain fun p q => p.joins q = false

instance (ps : List Piece) : Decidable (Apart ps) := inferInstanceAs (Decidable (ps.IsChain _))

theorem rereadFrom_of_apart {p : Piece} {ps : List Piece} (h : Apart (p :: ps)) : rereadFrom p ps = p :: ps := by
  induction ps generalizing p with
  | nil => rfl
  | cons q ps ih =>
    obtain ⟨hjoins, hrest⟩ := List.isChain_cons_cons.1 h
    rw [rereadFrom, if_neg (by simp [hjoins]), ih hrest]

theorem length_valueOf_rereadFrom_le (p : Piece) (ps : List Piece) :
    (valueOf (rereadFrom p ps)).length ≤ (valueOf (p :: ps)).length := by
  induction ps generalizing p with
  | nil => exact Nat.le_refl _
  | cons q ps ih =>
    rw [rereadFrom]
    split
    · rename_i hjoins
      have hlonger := Piece.length_units_longer hjoins
      have hrest := ih (p.longer q)
      simp only [valueOf, List.flatMap_cons, List.length_append] at hrest ⊢
      omega
    · have hrest := ih q
      simp only [valueOf, List.flatMap_cons, List.length_append] at hrest ⊢
      omega

/-- Where a part takes up another one, the value gets shorter. -/
theorem length_valueOf_rereadFrom_lt {p : Piece} {ps : List Piece} (h : ¬ Apart (p :: ps)) :
    (valueOf (rereadFrom p ps)).length < (valueOf (p :: ps)).length := by
  induction ps generalizing p with
  | nil => exact (h (List.isChain_singleton _)).elim
  | cons q ps ih =>
    rw [rereadFrom]
    split
    · rename_i hjoins
      have hlonger := Piece.length_units_longer hjoins
      have hrest := length_valueOf_rereadFrom_le (p.longer q) ps
      simp only [valueOf, List.flatMap_cons, List.length_append] at hrest ⊢
      omega
    · rename_i hjoins
      have hrest := ih fun hapart => h (List.isChain_cons_cons.2 ⟨by simpa using hjoins, hapart⟩)
      simp only [valueOf, List.flatMap_cons, List.length_append] at hrest ⊢
      omega

/-- Reading parts again keeps their value where none takes up the one behind it, and only there. -/
theorem valueOf_reread_iff (ps : List Piece) : valueOf (reread ps) = valueOf ps ↔ Apart ps := by
  cases ps with
  | nil => exact iff_of_true rfl List.isChain_nil
  | cons p ps =>
    constructor
    · intro he
      by_contra hjoins
      exact absurd (congrArg List.length he) (length_valueOf_rereadFrom_lt hjoins).ne
    · intro hapart
      rw [reread, rereadFrom_of_apart hapart]

end StringLiteral

end ServerSplit.Js
