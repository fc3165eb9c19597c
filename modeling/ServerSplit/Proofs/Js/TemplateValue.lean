import ServerSplit.Proofs.Js.Continuations

/-! What the text of a template stands for. Between two substitutions it is read in parts, each escape with what
belongs to it; the parts have a cooked string if all of them are valid. Parts that are written one behind another
are read as these parts, unless two of them open a substitution. -/
namespace ServerSplit.Js.TemplateLiteral

open Lexeme

/-! ### Reading -/

/-- The raw string of a text: a carriage return counts as a line feed, and so does a pair of them. -/
def raw : Text → Text
  | '\r' :: '\n' :: t => '\n' :: raw t
  | '\r' :: t => '\n' :: raw t
  | c :: t => c :: raw t
  | [] => []

/-- What belongs to an escape behind its first character, if all of it is there. Digits stand on their own. -/
def rest (c : Char) (t : Text) : Text :=
  let digits : Option (Text × Text) :=
    if c = 'x' then count 2 isHexDigit t
    else if c = 'u' then
      count 4 isHexDigit t <|> andThen (exactly ['\x7b']) (andThen (run isHexDigit) (exactly ['\x7d'])) t
    else none
  (digits.map (·.1)).getD []

/-- The part at the head of a raw string, and what follows it. Nothing is read where the template ends or a
substitution opens. -/
def read? : Text → Option (Piece × Text)
  | '\\' :: c :: t => some (.escape c (rest c t), t.drop (rest c t).length)
  | c :: t => if c = '\\' ∨ c = '`' ∨ c = '$' ∧ t.head? = some '\x7b' then none else some (.plain c, t)
  | [] => none

/-- The parts of a raw string; it has at most `n` of them. -/
def readAll? : Nat → Text → Option (List Piece)
  | _, [] => some []
  | 0, _ :: _ => none
  | n + 1, c :: t => do
    let (p, r) ← read? (c :: t)
    let ps ← readAll? n r
    return p :: ps

/-- The parts of what stands between two substitutions. -/
def pieces? (t : Text) : Option (List Piece) := readAll? (raw t).length (raw t)

/-! ### Values -/

def isDigit : Piece → Bool
  | .plain c => c.isDigit
  | .escape _ _ => false

/-- Whether an escape may stand in a template that has a cooked string, whatever follows it. -/
def isValid : Piece → Bool
  | .plain _ => true
  | .escape c w =>
    if c = 'x' then !w.isEmpty
    else if c = 'u' then (Piece.codePoint? w).isSome
    else c = '0' || !c.isDigit

/-- A zero may not have a digit behind it. -/
def Apart (ps : List Piece) : Prop := ps.IsChain fun p q => ¬ (p = .escape '0' [] ∧ isDigit q = true)

instance (ps : List Piece) : Decidable (Apart ps) := inferInstanceAs (Decidable (ps.IsChain _))

/-- The cooked string, if there is one. -/
def cooked (ps : List Piece) : Option (List UInt16) :=
  if ps.all isValid ∧ Apart ps then some (StringLiteral.valueOf ps) else none

/-- No two parts open a substitution. -/
def Closed (ps : List Piece) : Prop := ps.IsChain fun p q => ¬ (p = .plain '$' ∧ q = .plain '\x7b')

instance (ps : List Piece) : Decidable (Closed ps) := inferInstanceAs (Decidable (ps.IsChain _))

example : (pieces? "a\\x41\\u\x7b1f600\x7d\\\r\n$\r".toList).bind cooked =
    some [97, 65, 0xd83d, 0xde00, 36, 10] := by decide

/-! ### Raw strings -/

theorem raw_pair (t : Text) : raw ('\r' :: '\n' :: t) = '\n' :: raw t := by rw [raw]

theorem raw_return {t : Text} (h : t.head? ≠ some '\n') : raw ('\r' :: t) = '\n' :: raw t := by
  rw [raw]
  rintro u rfl
  exact h rfl

theorem raw_cons {c : Char} (hc : c ≠ '\r') (t : Text) : raw (c :: t) = c :: raw t := by
  rw [raw]
  · rintro u rfl
    exact (hc rfl).elim
  · exact hc

theorem notMem_raw (t : Text) : '\r' ∉ raw t := by
  fun_induction raw t with
  | case1 t ih => simpa using ih
  | case2 t _ ih => simpa using ih
  | case3 c t _ hc ih => simpa [ih] using fun h => hc h.symm
  | case4 => simp

theorem mem_of_mem_raw {c : Char} {t : Text} (h : c ∈ raw t) : c ∈ t ∨ c = '\n' := by
  fun_induction raw t with
  | case1 t ih => grind
  | case2 t _ ih => grind
  | case3 d t _ _ ih => grind
  | case4 => cases h

theorem raw_of_notMem {t : Text} (h : '\r' ∉ t) : raw t = t := by
  induction t with
  | nil => rfl
  | cons c t ih =>
    obtain ⟨hc, ht⟩ := not_or.1 (List.mem_cons.not.1 h)
    rw [raw_cons (Ne.symm hc), ih ht]

/-- Raw strings follow one another, unless a carriage return is torn from its line feed. -/
theorem raw_append {a b : Text} (h : ¬ (a.getLast? = some '\r' ∧ b.head? = some '\n')) :
    raw (a ++ b) = raw a ++ raw b := by
  fun_induction raw a with
  | case1 a ih =>
    rw [List.cons_append, List.cons_append, raw_pair, ih, List.cons_append]
    rintro ⟨hlast, hhead⟩
    exact h ⟨by simp [List.getLast?_cons, hlast], hhead⟩
  | case2 a hpair ih =>
    have hb : (a ++ b).head? ≠ some '\n' := by
      cases a with
      | nil => exact fun hhead => h ⟨rfl, hhead⟩
      | cons c a =>
        intro hhead
        exact hpair a (by rw [Option.some.inj hhead])
    rw [List.cons_append, raw_return hb, ih, List.cons_append]
    rintro ⟨hlast, hhead⟩
    exact h ⟨by simp [List.getLast?_cons, hlast], hhead⟩
  | case3 c a _ hc ih =>
    rw [List.cons_append, raw_cons hc, ih, List.cons_append]
    rintro ⟨hlast, hhead⟩
    exact h ⟨by simp [List.getLast?_cons, hlast], hhead⟩
  | case4 => rfl

theorem raw_eq_nil {t : Text} (h : raw t = []) : t = [] := by
  fun_induction raw t with
  | case1 | case2 | case3 => cases h
  | case4 => rfl

theorem head?_of_raw {c : Char} (hc : c ≠ '\n') {t : Text} (h : (raw t).head? = some c) : t.head? = some c := by
  fun_induction raw t with
  | case1 | case2 => exact (hc (Option.some.inj h).symm).elim
  | case3 | case4 => exact h

theorem getLast?_of_raw {c : Char} (hc : c ≠ '\n') {t : Text} (h : (raw t).getLast? = some c) :
    t.getLast? = some c := by
  fun_induction raw t with
  | case1 t ih => grind [List.getLast?_cons]
  | case2 t _ ih => grind [List.getLast?_cons]
  | case3 d t _ _ ih =>
    rw [List.getLast?_cons] at h ⊢
    cases hraw : (raw t).getLast? with
    | none =>
      rw [raw_eq_nil (List.getLast?_eq_none_iff.1 hraw)]
      rwa [hraw] at h
    | some e =>
      rw [hraw] at h
      cases h
      rw [ih hraw]
      rfl
  | case4 => exact h

/-! ### Parts one behind another -/

/-- A part as it can stand in a raw string. -/
inductive Stands : Piece → Prop
  | plain {c : Char} (h : ¬ (c = '\\' ∨ c = '`' ∨ c = '\r')) : Stands (.plain c)
  | hex {w : Text} (hlength : w.length = 2) (hall : w.all isHexDigit = true) : Stands (.escape 'x' w)
  | four {w : Text} (hlength : w.length = 4) (hall : w.all isHexDigit = true) : Stands (.escape 'u' w)
  | braced {ds : Text} (hall : ds.all isHexDigit = true) (hds : ds ≠ []) :
    Stands (.escape 'u' ('\x7b' :: ds ++ ['\x7d']))
  | single {c : Char} (h : ¬ (c = 'x' ∨ c = 'u' ∨ c = '\r')) : Stands (.escape c [])

theorem rest_append {c : Char} {w : Text} (h : Stands (.escape c w)) (t : Text) : rest c (w ++ t) = w := by
  cases h with
  | hex hlength hall => simp [rest, Piece.count_append hlength hall]
  | four hlength hall => simp [rest, count, hlength, hall]
  | @braced ds hall hds =>
    have hrun : run isHexDigit (ds ++ '\x7d' :: t) = some (ds, '\x7d' :: t) := by
      have htake : (ds ++ '\x7d' :: t).takeWhile isHexDigit = ds := by
        rw [List.takeWhile_append_of_pos (List.all_eq_true.1 hall)]
        simp [isHexDigit]
      have hdrop : (ds ++ '\x7d' :: t).dropWhile isHexDigit = '\x7d' :: t := by
        rw [List.dropWhile_append_of_pos (List.all_eq_true.1 hall)]
        simp [isHexDigit]
      obtain ⟨d, ds, rfl⟩ := List.exists_cons_of_ne_nil hds
      simp only [run, htake, hdrop]
    have hcount : count 4 isHexDigit ('\x7b' :: (ds ++ '\x7d' :: t)) = none := by simp [count, isHexDigit]
    simp [rest, hcount, andThen, exactly, Text.after, hrun]
  | single h =>
    simp only [not_or] at h
    simp [rest, h.1, h.2.1]

theorem closed_cons {p : Piece} {ps : List Piece} :
    Closed (p :: ps) ↔ ¬ (p = .plain '$' ∧ ps.head? = some (.plain '\x7b')) ∧ Closed ps := by
  rw [Closed, List.isChain_cons]
  constructor
  · rintro ⟨hhead, hrest⟩
    exact ⟨fun h => hhead _ h.2 ⟨h.1, rfl⟩, hrest⟩
  · rintro ⟨hhead, hrest⟩
    exact ⟨fun q hq h => hhead ⟨h.1, by rw [hq, h.2]⟩, hrest⟩

theorem closed_of_notMem {ps : List Piece} (h : .plain '$' ∉ ps) : Closed ps := by
  induction ps with
  | nil => exact .nil
  | cons p ps ih =>
    obtain ⟨hp, hps⟩ := not_or.1 (List.mem_cons.not.1 h)
    exact closed_cons.2 ⟨fun hopens => hp hopens.1.symm, ih hps⟩

theorem closed_append {ps qs : List Piece} : Closed (ps ++ qs) ↔
    Closed ps ∧ Closed qs ∧ ¬ (ps.getLast? = some (.plain '$') ∧ qs.head? = some (.plain '\x7b')) := by
  rw [Closed, List.isChain_append]
  constructor
  · rintro ⟨hps, hqs, hboth⟩
    exact ⟨hps, hqs, fun h => hboth _ h.1 _ h.2 ⟨rfl, rfl⟩⟩
  · rintro ⟨hps, hqs, hboth⟩
    refine ⟨hps, hqs, fun p hp q hq => ?_⟩
    rintro ⟨rfl, rfl⟩
    exact hboth ⟨hp, hq⟩

theorem texts_plain (t : Text) : (t.map Piece.plain).flatMap Piece.text = t := by
  induction t with
  | nil => rfl
  | cons c t ih => rw [List.map_cons, List.flatMap_cons, ih]; rfl

theorem head?_texts {ps : List Piece} :
    (ps.flatMap Piece.text).head? = some '\x7b' ↔ ps.head? = some (.plain '\x7b') := by
  cases ps with
  | nil => simp
  | cons p ps => cases p <;> simp [Piece.text]

/-- A part is read in front of any text with which it opens no substitution. -/
theorem read?_text {p : Piece} (h : Stands p) (t : Text) :
    read? (p.text ++ t) = if p = .plain '$' ∧ t.head? = some '\x7b' then none else some (p, t) := by
  cases p with
  | plain c =>
    cases h with
    | plain hc =>
      simp only [not_or] at hc
      simp [Piece.text, read?, hc.1, hc.2.1]
  | escape c w => simp [Piece.text, read?, rest_append h]

theorem readAll?_texts {ps : List Piece} (h : ∀ p ∈ ps, Stands p) {n : Nat}
    (hn : (ps.flatMap Piece.text).length ≤ n) :
    readAll? n (ps.flatMap Piece.text) = if Closed ps then some ps else none := by
  induction ps generalizing n with
  | nil =>
    have hclosed : Closed [] := List.isChain_nil
    rw [if_pos hclosed]
    cases n <;> rfl
  | cons p ps ih =>
    obtain ⟨hp, hps⟩ := List.forall_mem_cons.1 h
    obtain ⟨c, u, hu⟩ := List.exists_cons_of_ne_nil p.text_ne_nil
    obtain ⟨m, rfl⟩ : ∃ m, n = m + 1 := by
      refine ⟨n - 1, ?_⟩
      simp only [List.flatMap_cons, hu, List.length_append, List.length_cons] at hn
      omega
    have hm : (ps.flatMap Piece.text).length ≤ m := by
      simp only [List.flatMap_cons, hu, List.length_append, List.length_cons] at hn
      omega
    have hread := read?_text hp (ps.flatMap Piece.text)
    simp only [hu, head?_texts] at hread
    rw [List.flatMap_cons, hu, List.cons_append, readAll?, ← List.cons_append, hread]
    by_cases hopens : p = .plain '$' ∧ ps.head? = some (.plain '\x7b')
    · rw [if_pos hopens, if_neg fun hclosed => (closed_cons.1 hclosed).1 hopens]
      rfl
    · have hclosed : Closed (p :: ps) ↔ Closed ps := closed_cons.trans (and_iff_right hopens)
      rw [if_neg hopens, if_congr hclosed rfl rfl]
      by_cases hrest : Closed ps
      · simp [ih hps hm, hrest]
      · simp [ih hps hm, hrest]

theorem notMem_text {p : Piece} (h : Stands p) : '\r' ∉ p.text := by
  have hdigits : ∀ {w : Text}, w.all isHexDigit = true → '\r' ∉ w := by
    intro w hall hmem
    exact absurd (List.all_eq_true.1 hall _ hmem) (by decide)
  cases h with
  | plain hc => simpa [Piece.text] using fun h => hc (.inr (.inr h.symm))
  | hex _ hall | four _ hall => simpa [Piece.text] using hdigits hall
  | braced hall => simpa [Piece.text] using hdigits hall
  | single hc => simpa [Piece.text] using fun h => hc (.inr (.inr h.symm))

theorem raw_texts {ps : List Piece} (h : ∀ p ∈ ps, Stands p) :
    raw (ps.flatMap Piece.text) = ps.flatMap Piece.text := by
  refine raw_of_notMem fun hmem => ?_
  obtain ⟨p, hp, hmem⟩ := List.mem_flatMap.1 hmem
  exact notMem_text (h p hp) hmem

/-- Parts one behind another are read as these parts, unless two of them open a substitution. -/
theorem pieces?_of_raw {t : Text} {ps : List Piece} (h : ∀ p ∈ ps, Stands p) (ht : raw t = ps.flatMap Piece.text) :
    pieces? t = if Closed ps then some ps else none := by
  rw [pieces?, ht]
  exact readAll?_texts h (Nat.le_refl _)

/-! ### Parts without escaped line ends -/

/-- What holds along a row from which some are taken out holds along the row, if it always holds next to
these. -/
theorem isChain_of_filter {α : Type} {R : α → α → Prop} {q : α → Bool}
    (hq : ∀ a b, q a = false ∨ q b = false → R a b) {l : List α} (h : (l.filter q).IsChain R) : l.IsChain R := by
  induction l with
  | nil => exact .nil
  | cons a l ih =>
    refine List.isChain_cons.2 ⟨fun b hb => ?_, ih ?_⟩
    · obtain ⟨l, rfl⟩ := List.head?_eq_some_iff.1 hb
      by_cases hboth : q a = true ∧ q b = true
      · rw [List.filter_cons_of_pos hboth.1, List.filter_cons_of_pos hboth.2] at h
        exact (List.isChain_cons_cons.1 h).1
      · refine hq a b ?_
        simpa only [not_and_or, Bool.not_eq_true] using hboth
    · cases hqa : q a with
      | true =>
        rw [List.filter_cons_of_pos hqa] at h
        exact h.tail
      | false =>
        rw [List.filter_cons_of_neg (by simp [hqa])] at h
        exact h

theorem isValid_of_breaksLine {p : Piece} (h : p.breaksLine = true) : isValid p = true := by
  cases p with
  | plain => cases h
  | escape c w =>
    rcases (by simpa [Piece.breaksLine] using h : c = '\n' ∨ c = '\r') with rfl | rfl <;> rfl

/-- Without escaped line ends the parts have the same cooked string, unless they have one and a zero then stands
before a digit. -/
theorem cooked_kept_iff (ps : List Piece) :
    cooked (StringLiteral.kept ps) = cooked ps ↔ cooked ps = none ∨ Apart (StringLiteral.kept ps) := by
  have hvalid : (StringLiteral.kept ps).all isValid = ps.all isValid := by
    rw [Bool.eq_iff_iff, List.all_eq_true, List.all_eq_true]
    refine ⟨fun h p hp => ?_, fun h p hp => h p (List.mem_of_mem_filter hp)⟩
    cases hline : p.breaksLine with
    | true => exact isValid_of_breaksLine hline
    | false => exact h p (List.mem_filter.2 ⟨hp, by simp [hline]⟩)
  have hapart : Apart (StringLiteral.kept ps) → Apart ps := by
    refine isChain_of_filter fun p q hpq => ?_
    rintro ⟨rfl, hq⟩
    rcases hpq with hp | hq'
    · cases hp
    · cases q <;> simp_all [isDigit, Piece.breaksLine]
  unfold cooked
  rw [hvalid, StringLiteral.valueOf_kept]
  by_cases hkept : Apart (StringLiteral.kept ps)
  · simp [hkept, hapart hkept]
  · simp [hkept]

/-! ### Parts written on one line -/

/-- A part and how it may be written on one line. -/
def Written (p q : Piece) : Prop := q = p ∨ p = .plain '\n' ∧ q = .escape 'n' []

theorem Written.stands {p q : Piece} (h : Written p q) (hp : Stands p) : Stands q := by
  rcases h with rfl | ⟨rfl, rfl⟩
  · exact hp
  · exact .single (by decide)

theorem stands_written {ps qs : List Piece} (h : List.Forall₂ Written ps qs) (hps : ∀ p ∈ ps, Stands p) :
    ∀ q ∈ qs, Stands q := by
  induction h with
  | nil => exact hps
  | cons hp h ih =>
    obtain ⟨hfirst, hrest⟩ := List.forall_mem_cons.1 hps
    exact List.forall_mem_cons.2 ⟨hp.stands hfirst, ih hrest⟩

theorem isChain_written {R : Piece → Piece → Prop} {ps qs : List Piece} (h : List.Forall₂ Written ps qs)
    (hR : ∀ p p' q q', Written p q → Written p' q' → (R q q' ↔ R p p')) : qs.IsChain R ↔ ps.IsChain R := by
  induction h with
  | nil => exact Iff.rfl
  | @cons p q ps qs hp h ih =>
    cases h with
    | nil => simp
    | cons hp' h => rw [List.isChain_cons_cons, List.isChain_cons_cons, ih, hR _ _ _ _ hp hp']

theorem closed_written {ps qs : List Piece} (h : List.Forall₂ Written ps qs) : Closed qs ↔ Closed ps := by
  refine isChain_written h fun p p' q q' hp hp' => ?_
  rcases hp with rfl | ⟨rfl, rfl⟩ <;> rcases hp' with rfl | ⟨rfl, rfl⟩ <;> simp

theorem cooked_written {ps qs : List Piece} (h : List.Forall₂ Written ps qs) : cooked qs = cooked ps := by
  have hparts : qs.all isValid = ps.all isValid ∧ StringLiteral.valueOf qs = StringLiteral.valueOf ps := by
    unfold StringLiteral.valueOf
    induction h with
    | nil => exact ⟨rfl, rfl⟩
    | @cons p q _ _ hp h ih =>
      have hpart : isValid q = isValid p ∧ q.units = p.units := by
        rcases hp with rfl | ⟨rfl, rfl⟩
        · exact ⟨rfl, rfl⟩
        · exact ⟨rfl, rfl⟩
      rw [List.all_cons, List.all_cons, List.flatMap_cons, List.flatMap_cons, hpart.1, hpart.2, ih.1, ih.2]
      exact ⟨rfl, rfl⟩
  have hapart : Apart qs ↔ Apart ps := by
    refine isChain_written h fun p p' q q' hp hp' => ?_
    rcases hp with rfl | ⟨rfl, rfl⟩ <;> rcases hp' with rfl | ⟨rfl, rfl⟩ <;> simp [isDigit]
  unfold cooked
  rw [hparts.1, hparts.2]
  simp only [hapart]

end ServerSplit.Js.TemplateLiteral
