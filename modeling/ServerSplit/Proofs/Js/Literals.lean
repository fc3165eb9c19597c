import ServerSplit.Proofs.Js.Functions

/-! What the literals of a tree consist of. Strings and patterns have no trees in them but tokens; a template
is a row of fragments, escapes and substitutions between two backticks, as they follow one another in the
text. -/
namespace ServerSplit.Js

open Grammar (R Part)

/-! ### Tokens and nothing else -/

namespace Reader

/-- All trees of the innermost open node are tokens. -/
def IsFlat (s : Reader) : Prop := ∀ t ∈ s.items, ∃ u : Token, t = .leaf u

theorem IsFlat.notes {s s' : Reader} (hs : s.IsFlat) (h : Notes s s') : s'.IsFlat := by
  obtain ⟨⟨cs, hitems, hcs⟩, -⟩ := h
  unfold IsFlat
  rw [hitems]
  refine List.forall_mem_append.2 ⟨fun c hc => ?_, hs⟩
  obtain ⟨u, hu, -⟩ := hcs c hc
  exact ⟨u, hu⟩

theorem IsFlat.take {k : Leaf} {reads : Reads} {s s' : Reader} (hs : s.IsFlat)
    (h : s.take k reads = some s') : s'.IsFlat := by
  obtain ⟨p, -, rfl⟩ := Option.map_eq_some_iff.1 h
  exact List.forall_mem_cons.2 ⟨⟨_, rfl⟩, hs⟩

end Reader

namespace Grammar
open Rule Reader

variable {N : Nat}

theorem flat_read (k : Leaf) (reads : Reads) : Preserves IsFlat N (read k reads) := by
  refine preserves_step fun s s' hs h => ?_
  obtain ⟨t, ht, h⟩ := Option.bind_eq_some_iff.1 h
  exact (hs.notes (notes_settle ht)).take h

theorem flat_glued (k : Leaf) (reads : Reads) : Preserves IsFlat N (glued k reads) := by
  refine preserves_step fun s s' hs h => ?_
  simp only [Step.run] at h
  split at h
  · exact hs.take h
  · cases h

theorem flat_comment (g : Gap) : Preserves IsFlat N (step (.comment g)) :=
  preserves_step fun _ _ hs h => hs.notes (notes_comment h)

theorem flat_gap (g : Gap) : Preserves IsFlat N (gap g) :=
  preserves_step fun _ _ hs h => hs.notes (notes_settle h)

end Grammar

/-! ### Templates -/

/-- The token is the punctuation `s`. -/
def Token.IsMark (u : Token) (s : Text) : Prop := u.kind = .mark ∧ u.text = s

namespace Tree

/-- Pieces of a template that are read from the first text and leave the second, with nothing between them. -/
inductive Row : Text → List Tree → Text → Prop
  | nil (t : Text) : Row t [] t
  | fragment {u : Token} {ts : List Tree} {r t : Text} (kind : u.kind = .stringFragment) (before : u.before = [])
    (reads : Lexeme.templateText (u.text ++ r) = some (u.text, r)) (h : Row r ts t) :
    Row (u.text ++ r) (.leaf u :: ts) t
  | escape {u : Token} {ts : List Tree} {r t : Text} (kind : u.kind = .escapeSequence) (before : u.before = [])
    (reads : Lexeme.escapeSequence (u.text ++ r) = some (u.text, r)) (h : Row r ts t) :
    Row (u.text ++ r) (.leaf u :: ts) t
  | substitution {us ts : List Tree} {t r t' : Text} (lead : (Tree.node .templateSubstitution us).lead = [])
    (h : Row r ts t') : Row t (.node .templateSubstitution us :: ts) t'

theorem Row.append {t r t' : Text} {ts us : List Tree} (h : Row t ts r) (h' : Row r us t') : Row t (ts ++ us) t' := by
  induction h with
  | nil => exact h'
  | fragment kind before reads _ ih => exact .fragment kind before reads (ih h')
  | escape kind before reads _ ih => exact .escape kind before reads (ih h')
  | substitution lead _ ih => exact .substitution lead (ih h')

theorem Row.escape_of_mem {t r : Text} {ts : List Tree} {u : Token} (h : Row t ts r) (hu : .leaf u ∈ ts)
    (hkind : u.kind = .escapeSequence) : ∃ r, Lexeme.escapeSequence (u.text ++ r) = some (u.text, r) := by
  induction h with
  | nil => cases hu
  | fragment kind _ _ _ ih =>
    rcases List.mem_cons.1 hu with hu | hu
    · cases hu
      cases kind.symm.trans hkind
    · exact ih hu
  | escape _ _ reads _ ih =>
    rcases List.mem_cons.1 hu with hu | hu
    · cases hu
      exact ⟨_, reads⟩
    · exact ih hu
  | substitution _ _ ih => exact ih ((List.mem_cons.1 hu).resolve_left (by simp))

/-- Nothing stands before a piece, and no piece is a comment. -/
theorem Row.tight {t r : Text} {ts : List Tree} (h : Row t ts r) :
    ∀ u ∈ ts, u.isComment = false ∧ u.lead = [] := by
  induction h with
  | nil => simp
  | fragment kind before _ _ ih => exact List.forall_mem_cons.2 ⟨⟨by simp [isComment, isLeaf, kind], before⟩, ih⟩
  | escape kind before _ _ ih => exact List.forall_mem_cons.2 ⟨⟨by simp [isComment, isLeaf, kind], before⟩, ih⟩
  | substitution lead _ ih => exact List.forall_mem_cons.2 ⟨⟨rfl, lead⟩, ih⟩

/-- A row of pieces between two backticks. -/
def IsTemplate (ts : List Tree) : Prop :=
  ∃ opening row closing t r, ts = .leaf opening :: (row ++ [.leaf closing]) ∧
    opening.IsMark ['`'] ∧ closing.IsMark ['`'] ∧ closing.before = [] ∧ Row t row r

/-- The escapes in a template are read as escapes. -/
theorem IsTemplate.escape_of_mem {ts : List Tree} {u : Token} (h : IsTemplate ts) (hu : .leaf u ∈ ts)
    (hkind : u.kind = .escapeSequence) : ∃ r, Lexeme.escapeSequence (u.text ++ r) = some (u.text, r) := by
  obtain ⟨opening, row, closing, t, r, rfl, hopening, hclosing, -, hrow⟩ := h
  have hmark {v : Token} (hv : v.IsMark ['`']) : Tree.leaf u ≠ .leaf v := by
    rintro he
    cases he
    cases hkind.symm.trans hv.1
  rcases List.mem_cons.1 hu with hu | hu
  · exact (hmark hopening hu).elim
  · rcases List.mem_append.1 hu with hu | hu
    · exact hrow.escape_of_mem hu hkind
    · exact (hmark hclosing (List.mem_singleton.1 hu)).elim

/-- Trees between the marks of a substitution. -/
def IsSubstitution (ts : List Tree) : Prop :=
  ∃ opening inner closing, ts = .leaf opening :: (inner ++ [.leaf closing]) ∧
    opening.IsMark ['$', '\x7b'] ∧ closing.IsMark ['\x7d']

/-- Literals are made of what they are to be made of. -/
def IsLiteral : Tree → Prop
  | .node .string ts | .node .regex ts => ∀ t ∈ ts, ∃ u : Token, t = .leaf u
  | .node .templateString ts => IsTemplate ts
  | .node .templateSubstitution ts => IsSubstitution ts
  | _ => True

end Tree

/-- The kinds of nodes that are no literals and no parts of templates. -/
def Kind.isPlain : Kind → Bool
  | .string | .regex | .templateString | .templateSubstitution => false
  | _ => true

theorem literal_plain (k : Kind) (ts : List Tree) (hk : k.isPlain = true) : Tree.IsLiteral (.node k ts) := by
  cases k <;> trivial

theorem literal_kept : Kept Tree.IsLiteral := by
  refine Kept.of_given (fun _ => trivial) (fun k ts hk => literal_plain k ts ?_) (fun _ _ => trivial)
    (fun _ _ => trivial)
  unfold Kind.isGiven at hk
  split at hk <;> first | rfl | cases hk

/-! ### The grammar -/

namespace Grammar
open Rule Reader Tree

/-- The parts in which no literal ends. -/
def Part.isPlain : Part → Bool
  | .string | .element | .operand _ | .template => false
  | _ => true

theorem part_ends_plain {p : Part} (hp : p.isPlain = true) :
    (grammar p).ends.all Kind.isPlain = true := by
  cases p with
  | string | element | operand | template => cases hp
  | continuation c level => exact continuation_ends rfl c level
  | statement inCase => cases inCase <;> rfl
  | functionForm r => cases r <;> rfl
  | classForm r => cases r <;> rfl
  | _ => rfl

/-! ### Substitutions and templates -/

theorem substitution_of_runs {s s' : Reader} (hitems : s.items = []) (hsettled : s.settled = true)
    (h : Runs N (mark "$\x7b" ++ enclosed ++ mark "\x7d") s s') : IsSubstitution s'.items.reverse ∧
      (Tree.node .templateSubstitution s'.items.reverse).lead.size = s.blank.size := by
  obtain ⟨t, h, hclosing⟩ := h.seq
  obtain ⟨u, hopening, henclosed⟩ := h.seq
  obtain ⟨opening, ho⟩ := token_settled hsettled hopening.step
  have hadds : Adds enclosed 1 := ⟨rfl, rfl⟩
  obtain ⟨new, hnew, -⟩ := hadds.items henclosed
  obtain ⟨v, closing, hv, hc⟩ := token_settle hclosing.step
  obtain ⟨⟨cs, hcs, -⟩, -⟩ := notes_settle hv
  have hrow : s'.items.reverse = .leaf opening :: ((cs ++ new).reverse ++ [.leaf closing]) := by
    rw [hc.items, hcs, hnew, ho.items, hitems]
    simp
  refine ⟨⟨opening, (cs ++ new).reverse, closing, hrow, ⟨ho.kind, (Lexeme.exactly_eq_some ho.reads).1⟩, hc.kind,
    (Lexeme.exactly_eq_some hc.reads).1⟩, ?_⟩
  rw [hrow]
  exact ho.before

/-- A row of pieces that has been read on top of what was there. -/
def ReadsRow (t : Text) (base : List Tree) (s : Reader) : Prop :=
  ∃ row, s.items = row.reverse ++ base ∧ Row t row s.rest

theorem readsRow_glued {t : Text} {base : List Tree} {k : Leaf} {reads : Reads} (htakes : Takes reads)
    (hrow : ∀ {u : Token} {r : Text}, u.kind = k → u.before = [] → reads (u.text ++ r) = some (u.text, r) →
      Row (u.text ++ r) [.leaf u] r) : Preserves (ReadsRow t base) N (glued k reads) := by
  refine preserves_step fun s s' hs h => ?_
  obtain ⟨row, hitems, hread⟩ := hs
  obtain ⟨hblank, u, hu⟩ := glued_settled h
  have hbefore : u.before = [] := Text.size_eq_zero (by rw [hu.before, hblank]; rfl)
  have hrest := (htakes hu.reads).2
  have hreads := hu.reads
  rw [hrest] at hreads
  refine ⟨row ++ [.leaf u], by rw [hu.items, hitems]; simp, hread.append ?_⟩
  rw [hrest]
  exact hrow hu.kind hbefore hreads

/-- Where a substitution opens, nothing is read before it. -/
theorem readsRow_substitution {t : Text} {base : List Tree} : Preserves (ReadsRow t base) N
    (present (glued .mark (Lexeme.exactly ['$', '\x7b'])) ++
      node .templateSubstitution (mark "$\x7b" ++ enclosed ++ mark "\x7d")) := by
  intro s s' hs h
  obtain ⟨row, hitems, hread⟩ := hs
  obtain ⟨w, hpresent, hnode⟩ := h.seq
  obtain ⟨rfl, x, hx⟩ := hpresent.present
  obtain ⟨hblank, o, ho⟩ := glued_settled hx.step
  have hat : w.At '$' := by
    rw [At, (Lexeme.exactly_eq_some ho.reads).2]
    rfl
  have hadds : Adds (mark "$\x7b" ++ enclosed ++ mark "\x7d") 3 := ⟨rfl, rfl⟩
  obtain ⟨v, us, hv, hnew, -, u, hrun, hus⟩ := hnode.node_items hadds
  have hpass := settle_at rfl hat hv
  have hsubstitution := (substitution_of_runs rfl (settled_opened hv) hrun).2
  rw [hus, List.reverse_reverse] at hsubstitution
  refine ⟨row ++ [.node .templateSubstitution us], ?_, hread.append (.substitution ?_ (.nil _))⟩
  · rw [hnew, hpass.items, hitems]
    simp
  · refine Text.size_eq_zero (hsubstitution.trans (hpass.blank.trans ?_))
    rw [hblank]
    rfl

theorem template_of_runs {s s' : Reader} (hitems : s.items = []) (hsettled : s.settled = true)
    (h : Runs N (mark "`" ++ many (anyOf [glued .stringFragment Lexeme.templateText,
      glued .escapeSequence Lexeme.escapeSequence,
      present (glued .mark (Lexeme.exactly ['$', '\x7b'])) ++
        node .templateSubstitution (mark "$\x7b" ++ enclosed ++ mark "\x7d")]) ++
      glued .mark (Lexeme.exactly ['`'])) s s') :
    IsTemplate s'.items.reverse := by
  obtain ⟨t, h, hclosing⟩ := h.seq
  obtain ⟨u, hopening, hrow⟩ := h.seq
  obtain ⟨opening, ho⟩ := token_settled hsettled hopening.step
  have hpieces : Preserves (ReadsRow u.rest [.leaf opening]) N (many (anyOf [
      glued .stringFragment Lexeme.templateText, glued .escapeSequence Lexeme.escapeSequence,
      present (glued .mark (Lexeme.exactly ['$', '\x7b'])) ++
        node .templateSubstitution (mark "$\x7b" ++ enclosed ++ mark "\x7d")])) := by
    refine .many (.orElse ?_ (.orElse ?_ readsRow_substitution))
    · exact readsRow_glued Lexeme.takes_templateText fun hk hb hr => .fragment hk hb hr (.nil _)
    · exact readsRow_glued Lexeme.takes_escapeSequence fun hk hb hr => .escape hk hb hr (.nil _)
  obtain ⟨row, hrows, hread⟩ := hpieces u t ⟨[], by rw [ho.items, hitems]; rfl, .nil _⟩ hrow
  obtain ⟨hblank, closing, hc⟩ := glued_settled hclosing.step
  refine ⟨opening, row, closing, u.rest, t.rest, ?_, ⟨ho.kind, (Lexeme.exactly_eq_some ho.reads).1⟩,
    ⟨hc.kind, (Lexeme.exactly_eq_some hc.reads).1⟩, Text.size_eq_zero (by rw [hc.before, hblank]; rfl), hread⟩
  rw [hc.items, hrows]
  simp

section Parts

variable {source : Text} {N : Nat} (hparts : ∀ M < N, ∀ p, Keeps source IsLiteral M (grammar p))
include hparts

/-- Rules that end no literals, over parts that keep the literals as they are to be. -/
theorem keeps_plain {r : R} (hreads : r.ReadsHeads) (hends : r.ends.all Kind.isPlain = true) :
    Keeps source IsLiteral N r :=
  keeps_free literal_kept literal_plain hparts hreads hends

/-- A literal of nothing but tokens. -/
theorem keeps_flat {k : Kind} {a : R} (hk : k = .string ∨ k = .regex) (hreads : a.ReadsHeads)
    (hends : a.ends.all Kind.isPlain = true) (hflat : Preserves IsFlat N a) :
    Keeps source IsLiteral N (node k a) := by
  refine keeps_node literal_kept (keeps_plain hparts hreads hends) ?_
  intro t u ht _ _ hrun
  have htokens : ∀ c ∈ u.items.reverse, ∃ v : Token, c = .leaf v := by
    intro c hc
    refine hflat t u ?_ hrun c (List.mem_reverse.1 hc)
    unfold IsFlat
    rw [ht]
    simp
  rcases hk with rfl | rfl <;> exact htokens

theorem literal_string : Keeps source IsLiteral N string := by
  have quoted {q : Char} : Keeps source IsLiteral N (node .string
      (read .mark (Lexeme.exactly [q]) ++
        many (anyOf [glued .stringFragment (Lexeme.stringFragment q),
          glued .escapeSequence Lexeme.escapeSequence, step (.comment .inLiteral)]) ++
        gap .inLiteral ++ read .mark (Lexeme.exactly [q]))) := by
    refine keeps_flat hparts (.inl rfl) ?_ rfl ?_
    · simp [Step.ReadsHead, Lexeme.takes_stringFragment, Lexeme.takes_escapeSequence, Lexeme.takes_exactly]
    · refine (((flat_read _ _).seq (.many ?_)).seq (flat_gap _)).seq (flat_read _ _)
      exact (flat_glued _ _).orElse ((flat_glued _ _).orElse (flat_comment _))
  exact quoted.orElse quoted

theorem literal_attributeString : Keeps source IsLiteral N attributeString := by
  have quoted {q : Char} : Keeps source IsLiteral N (node .string
      (read .mark (Lexeme.exactly [q]) ++
        many (glued .stringFragment (Lexeme.attributeFragment q) <|> entity) ++
        read .mark (Lexeme.exactly [q]))) := by
    refine keeps_flat hparts (.inl rfl) ?_ rfl ?_
    · simp [entity, Lexeme.takes_attributeFragment, Lexeme.takes_entity, Lexeme.takes_exactly]
    · exact ((flat_read _ _).seq (.many ((flat_glued _ _).orElse (flat_read _ _)))).seq (flat_read _ _)
  exact quoted.orElse quoted

theorem literal_regex (c : Ctx) : Keeps source IsLiteral N (regex c) := by
  refine keeps_flat hparts (.inr rfl) ?_ rfl ?_
  · simp [Step.ReadsHead, Lexeme.takes_regexPattern, Lexeme.takes_regexFlags, Lexeme.takes_exactly]
  · have comments (g : Gap) : Preserves IsFlat N (many (step (.comment g))) := .many (flat_comment g)
    have pattern : Preserves IsFlat N (many (absent (glued .mark (Lexeme.exactly ['/'])) ++ step (.comment {}))) :=
      .many (preserves_absent.seq (flat_comment _))
    exact (((((flat_read _ _).seq (comments _)).seq (flat_glued _ _)).seq pattern).seq (flat_glued _ _)).seq
      ((comments _).seq (flat_glued _ _)).opt

theorem literal_operand (c : Ctx) : Keeps source IsLiteral N (operand c) := by
  have hreads : (operand c).ReadsHeads := readsHeads (.operand c)
  unfold operand at hreads ⊢
  obtain ⟨hgap, hreads⟩ := hreads
  refine (keeps_plain hparts hgap rfl).seq (.anyOf (by simp) fun r hr => ?_)
  have hr' := throughout_anyOf.1 hreads r hr
  by_cases hregex : r = regex c
  · rw [hregex]
    exact literal_regex hparts c
  · refine keeps_plain hparts hr' ?_
    fin_cases hr <;> first | rfl | exact absurd rfl hregex

theorem literal_template : Keeps source IsLiteral N template := by
  have hsubstitution : Keeps source IsLiteral N
      (node .templateSubstitution (mark "$\x7b" ++ enclosed ++ mark "\x7d")) :=
    keeps_node literal_kept (keeps_plain hparts (by simp [enclosed, Grammar.part]) rfl)
      fun _ _ ht hsettled _ hrun => (substitution_of_runs ht hsettled hrun).1
  have hopens : Keeps source IsLiteral N (present (glued .mark (Lexeme.exactly ['$', '\x7b']))) := by
    intro s s' hs h
    rw [h.present.1]
    exact hs
  have hmark : Keeps source IsLiteral N (mark "`") := keeps_plain hparts (by simp) rfl
  have hclosing : Keeps source IsLiteral N (glued .mark (Lexeme.exactly ['`'])) :=
    keeps_plain hparts (Lexeme.takes_exactly (by simp)) rfl
  have htext : Keeps source IsLiteral N (glued .stringFragment Lexeme.templateText) :=
    keeps_plain hparts Lexeme.takes_templateText rfl
  have hescape : Keeps source IsLiteral N (glued .escapeSequence Lexeme.escapeSequence) :=
    keeps_plain hparts Lexeme.takes_escapeSequence rfl
  have hpieces := (htext.orElse (hescape.orElse (hopens.seq hsubstitution))).many
  exact keeps_node literal_kept ((hmark.seq hpieces).seq hclosing)
    fun _ _ ht hsettled _ hrun => template_of_runs ht hsettled hrun

end Parts

/-- Every part of the grammar keeps the literals as they are to be. -/
theorem literal_part (source : Text) (N : Nat) (p : Part) : Keeps source IsLiteral N (grammar p) := by
  induction N using Nat.strongRecOn generalizing p with
  | ind N ih =>
    have hparts : ∀ M < N, ∀ p, Keeps source IsLiteral M (grammar p) := fun M hM p => ih M hM p
    cases hp : p.isPlain with
    | true => exact keeps_plain hparts (readsHeads p) (part_ends_plain hp)
    | false =>
      cases p with
      | string => exact literal_string hparts
      | operand c => exact literal_operand hparts c
      | template => exact literal_template hparts
      | element => exact keeps_element literal_kept literal_plain rfl hparts (literal_attributeString hparts)
      | _ => cases hp

end Grammar

/-- The literals in the tree of a source are made of what they are to be made of. -/
theorem parse_literal {source : Text} {tree : Tree} (h : parse source = some tree) :
    tree.Every Tree.IsLiteral :=
  parse_every literal_kept literal_plain rfl rfl (Grammar.literal_part source) h

end ServerSplit.Js
