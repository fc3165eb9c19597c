import ServerSplit.Proofs.Js.Functions

/-! What is true of all functions and strings of a tree, wherever they stand in it: a string begins with
its quote, and no function that begins as a stub for it does has a string at the start of its body. -/
namespace ServerSplit.Js

open Grammar (R Part Form StubHead)

/-! ### The property of a tree -/

/-- A function whose text begins as a stub of its own name does has no string at the start of its
body. -/
def Tree.IsNoStub (source : Text) (t : Tree) : Prop :=
  ∀ name before after, t.functionName? = some name → source = before ++ after →
    before.size = t.start → StubHead name after → prologue t.functionBody = []

/-- What every tree of the source is. -/
structure Sane (source : Text) (t : Tree) : Prop where
  quoted : t.IsQuoted
  noStub : t.IsNoStub source

theorem sane_of_nameless {source : Text} {t : Tree} (hquoted : t.IsQuoted)
    (hname : t.functionName? = none) : Sane source t := by
  refine ⟨hquoted, ?_⟩
  intro name before after h
  rw [hname] at h
  cases h

/-- The kinds of nodes that are neither a string nor a function with a name of its own. -/
def Kind.isFree : Kind → Bool
  | .string | .function .declaration | .function .generatorDeclaration | .function .expression
  | .function .generator => false
  | _ => true

theorem sane_free (source : Text) (k : Kind) (ts : List Tree) (hk : k.isFree = true) :
    Sane source (.node k ts) := by
  refine sane_of_nameless ?_ ?_
  · intro us h
    cases h
    cases hk
  · unfold Tree.functionName?
    split
    · rename_i k us heq
      cases heq
      cases k <;> first | rfl | cases hk
    · rfl

theorem sane_kept (source : Text) : Kept (Sane source) := by
  refine Kept.of_given (fun t => sane_of_nameless (fun ts h => nomatch h) rfl) ?_ ?_ ?_
  · intro k ts hk
    refine sane_free source k ts ?_
    unfold Kind.isGiven at hk
    split at hk <;> first | rfl | cases hk
  · exact fun ts h => ⟨fun us hus => (nomatch hus), h.noStub⟩
  · exact fun ts h => ⟨fun us hus => (nomatch hus), h.noStub⟩

open Reader (Good)

theorem Reader.Good.quoted {source : Text} {s : Reader} (h : Good source (Sane source) s) :
    s.Every Tree.IsQuoted :=
  fun t ht u hu => (h.every t ht u hu).quoted

namespace Grammar
open Rule Reader

/-- The parts in which no node is a string or a function with a name ends. -/
def Part.isFree : Part → Bool
  | .string | .element | .functionForm _ => false
  | _ => true

theorem part_ends_free {p : Part} (hp : p.isFree = true) : (grammar p).ends.all Kind.isFree = true := by
  cases p with
  | string | element | functionForm => cases hp
  | continuation c level => exact continuation_ends rfl c level
  | statement inCase => cases inCase <;> rfl
  | classForm r => cases r <;> rfl
  | _ => rfl

/-! ### Strings -/

/-- What the rule puts into a node begins with a mark. -/
def BeginsMark (r : R) : Prop :=
  ∀ N s s', s.items = [] → s.settled = true → Runs N r s s' →
    ∃ new m, s'.items = new ++ [.leaf m] ∧ m.kind = .mark

theorem beginsMark_read (reads : Reads) : BeginsMark (read .mark reads) := by
  intro N s s' hs hsettled h
  obtain ⟨tok, htok⟩ := token_settled hsettled h.step
  exact ⟨[], tok, by rw [htok.items, hs]; rfl, htok.kind⟩

theorem BeginsMark.append {a b : R} (ha : BeginsMark a) {k : Int} (hb : Adds b k) : BeginsMark (a ++ b) := by
  intro N s s' hs hsettled h
  obtain ⟨t, hat, hbt⟩ := h.seq
  obtain ⟨new, m, hitems, hm⟩ := ha N s t hs hsettled hat
  obtain ⟨new', hitems', -⟩ := hb.items hbt
  exact ⟨new' ++ new, m, by rw [hitems', hitems, List.append_assoc], hm⟩

theorem keeps_quoted {source : Text} {N : Nat} {a : R} (ha : Keeps source (Sane source) N a) (hmark : BeginsMark a) :
    Keeps source (Sane source) N (node .string a) := by
  refine keeps_node (sane_kept source) ha ?_
  intro t u ht hsettled _ hrun
  obtain ⟨new, m, hitems, hm⟩ := hmark N t u ht hsettled hrun
  refine sane_of_nameless ?_ rfl
  intro ts hts
  cases hts
  exact ⟨m, new.reverse, by rw [hitems]; simp, hm⟩

/-! ### Functions -/

/-- The tree that a function is read into is sane. -/
theorem Form.sane {source : Text} {N : Nat} {o : Bool} {s a b c d e u : Reader}
    (h : Form N o s a b c d e u) (hs : s.items = []) (hsettled : s.settled = true)
    (hcovers : s.Covers source) (hu : u.Every Tree.IsQuoted) (k : FunctionKind) :
    Sane source (.node (.function k) u.items.reverse) := by
  refine ⟨fun ts hts => (nomatch hts), ?_⟩
  intro name before after hname hsource hstart hstub
  obtain ⟨tok, new, hitems, hoffset⟩ := h.first hs hsettled
  have hbefore : before.size = (spell (Tree.tokensOf s.trees) ++ s.blank).size := by
    rw [hstart, Text.size_append, ← hcovers.offset, ← hoffset, hitems, List.reverse_append]
    rfl
  have happend : before ++ after = spell (Tree.tokensOf s.trees) ++ s.blank ++ s.rest :=
    hsource.symm.trans hcovers.text.symm
  obtain ⟨m, hm, hafter⟩ := Text.exists_append_of_size_le happend (Nat.le_of_eq hbefore)
  obtain rfl : m = [] := by
    rw [hm, Text.size_append] at hbefore
    exact Text.size_eq_zero (by omega)
  rw [hafter] at hstub
  exact h.prologue hs hsettled hname hstub hu

section Parts

variable {source : Text} {N : Nat} (hparts : ∀ M < N, ∀ p, Keeps source (Sane source) M (grammar p))
include hparts

/-- Rules that end no strings and no functions, over parts that keep what is sane. -/
theorem keeps_unnamed {r : R} (hreads : r.ReadsHeads) (hends : r.ends.all Kind.isFree = true) :
    Keeps source (Sane source) N r :=
  keeps_free (sane_kept source) (sane_free source) hparts hreads hends

theorem keeps_string : Keeps source (Sane source) N string := by
  have quoted {q : Char} (hq : Takes (Lexeme.exactly [q])) : Keeps source (Sane source) N (node .string
      (read .mark (Lexeme.exactly [q]) ++
        many (anyOf [glued .stringFragment (Lexeme.stringFragment q),
          glued .escapeSequence Lexeme.escapeSequence, step (.comment .inLiteral)]) ++
        gap .inLiteral ++ read .mark (Lexeme.exactly [q]))) := by
    refine keeps_quoted (keeps_unnamed hparts ?_ rfl) ?_
    · simp [hq, Step.ReadsHead, Lexeme.takes_stringFragment, Lexeme.takes_escapeSequence]
    · exact (((beginsMark_read _).append (k := 0) ⟨rfl, rfl⟩).append (k := 0) ⟨rfl, rfl⟩).append
        (k := 1) ⟨rfl, rfl⟩
  exact (quoted (Lexeme.takes_exactly (by simp))).orElse (quoted (Lexeme.takes_exactly (by simp)))

theorem keeps_attributeString : Keeps source (Sane source) N attributeString := by
  have quoted {q : Char} (hq : Takes (Lexeme.exactly [q])) : Keeps source (Sane source) N (node .string
      (read .mark (Lexeme.exactly [q]) ++
        many (glued .stringFragment (Lexeme.attributeFragment q) <|> entity) ++
        read .mark (Lexeme.exactly [q]))) := by
    refine keeps_quoted (keeps_unnamed hparts ?_ rfl) ?_
    · simp [hq, entity, Lexeme.takes_attributeFragment, Lexeme.takes_entity]
    · exact ((beginsMark_read _).append (k := 0) ⟨rfl, rfl⟩).append (k := 1) ⟨rfl, rfl⟩
  exact (quoted (Lexeme.takes_exactly (by simp))).orElse (quoted (Lexeme.takes_exactly (by simp)))

theorem keeps_functionForm (r : Role) : Keeps source (Sane source) N (functionForm r) := by
  intro s s' hs h
  obtain ⟨t, o, a, b, c, d, e, u, k, hsettle, hform, hend⟩ := functionForm_runs h
  have ht : Good source (Sane source) t := hs.step (sane_kept source) (a := .gap {}) trivial (fun k h => (nomatch h)) hsettle
  have hopened : Good source (Sane source) t.opened := ht.step (sane_kept source) (a := .opening) trivial (fun k h => (nomatch h)) rfl
  have ha : Good source (Sane source) a := keeps_unnamed hparts (by simp) rfl _ _ hopened hform.async
  have hb : Good source (Sane source) b := keeps_unnamed hparts (by simp) rfl _ _ ha hform.function
  have hc : Good source (Sane source) c := by
    rcases hform.star with rfl | hstar
    · exact hb
    · exact keeps_unnamed hparts (by simp) rfl _ _ hb hstar
  have hd : Good source (Sane source) d := by
    rcases hform.name with rfl | hname
    · exact hc
    · exact keeps_unnamed hparts (by simp) rfl _ _ hc hname
  have he : Good source (Sane source) e := keeps_unnamed hparts (r := parameters) ⟨trivial, trivial⟩ rfl _ _ hd hform.parameters
  have hu : Good source (Sane source) u := keeps_unnamed hparts (r := body o) trivial rfl _ _ he hform.body
  refine hu.step (sane_kept source) (a := .finish (.function k)) trivial ?_ hend
  rintro _ ⟨⟩
  exact hform.sane rfl (settled_opened hsettle) hopened.covers hu.quoted k

end Parts

/-- Every part of the grammar keeps what is good. -/
theorem keeps_part (source : Text) (N : Nat) (p : Part) : Keeps source (Sane source) N (grammar p) := by
  induction N using Nat.strongRecOn generalizing p with
  | ind N ih =>
    have hparts : ∀ M < N, ∀ p, Keeps source (Sane source) M (grammar p) := fun M hM p => ih M hM p
    cases hp : p.isFree with
    | true => exact keeps_unnamed hparts (readsHeads p) (part_ends_free hp)
    | false =>
      cases p with
      | string => exact keeps_string hparts
      | element =>
        exact keeps_element (sane_kept source) (sane_free source) rfl hparts (keeps_attributeString hparts)
      | functionForm r => exact keeps_functionForm hparts r
      | _ => cases hp

end Grammar

/-- The tree of a source is sane, and so is every tree in it. -/
theorem parse_sane {source : Text} {tree : Tree} (h : parse source = some tree) :
    tree.Every (Sane source) :=
  parse_every (sane_kept source) (sane_free source) rfl rfl (Grammar.keeps_part source) h

end ServerSplit.Js
