import Mathlib.Data.List.Chain
import ServerSplit.Js.OneLine
import ServerSplit.Proofs.Js.Every

/-! Where semicolons stand in a tree that has been read. The semicolon that ends a statement is in the
statement; only a field of a class leaves its own to the tree behind it. -/
namespace ServerSplit.Js

/-- The statements that hold the semicolon that ends them. -/
def Kind.holdsSemicolon (k : Kind) : Bool := k.takesSemicolon && k ≠ .fieldDefinition

namespace Tree

/-- What a tree is to the statements around it. -/
inductive Ending
  | statement
  | semicolon
  | other
  deriving DecidableEq

def ending : Tree → Option Ending
  | .leaf t =>
    if t.kind = .comment ∨ t.kind = .markupComment then none
    else if t.kind = .mark ∧ t.text = [';'] then some .semicolon
    else some .other
  | .node k _ => some (if k.holdsSemicolon then .statement else .other)

/-- What the trees of a row are, comments apart. -/
def endings (ts : List Tree) : List Ending := ts.filterMap ending

@[simp] theorem endings_append (ts us : List Tree) : endings (ts ++ us) = endings ts ++ endings us :=
  List.filterMap_append

@[simp] theorem endings_reverse (ts : List Tree) : endings ts.reverse = (endings ts).reverse :=
  List.filterMap_reverse

theorem endings_cons (t : Tree) (ts : List Tree) : endings (t :: ts) = t.ending.toList ++ endings ts := by
  unfold endings
  rw [List.filterMap_cons]
  cases t.ending <;> rfl

theorem endings_comments {cs : List Tree} (h : ∀ c ∈ cs, c.isComment = true) : endings cs = [] := by
  refine List.filterMap_eq_nil_iff.2 fun c hc => ?_
  have hcomment := h c hc
  cases c with
  | leaf t =>
    simp only [isComment, isLeaf, Bool.or_eq_true, decide_eq_true_eq] at hcomment
    exact if_pos hcomment
  | node k ts => cases hcomment

/-- No semicolon stands behind a statement that holds one, but for comments between them. -/
def Tidy (ts : List Tree) : Prop :=
  (endings ts).IsChain fun a b => ¬ (a = .statement ∧ b = .semicolon)

/-- The children of the tree are in order. -/
def IsTidy (t : Tree) : Prop := Tidy t.children

theorem tidy_reverse {ts : List Tree} :
    Tidy ts.reverse ↔ (endings ts).IsChain fun a b => ¬ (b = .statement ∧ a = .semicolon) := by
  rw [Tidy, endings_reverse, List.isChain_reverse]

/-- Behind such a statement the next tree that is no comment is no semicolon. -/
theorem Tidy.behind {as bs us : List Tree} {k : Kind} (h : Tidy (as ++ .node k us :: bs))
    (hk : k.holdsSemicolon = true) : (bs.find? (!·.isComment)).any OneLine.isSemicolon = false := by
  cases hbs : bs.find? (!·.isComment) with
  | none => rfl
  | some b =>
    obtain ⟨hb, cs, ds, rfl, hcs⟩ := List.find?_eq_some_iff_append.1 hbs
    have hnone : endings cs = [] := endings_comments fun c hc => by simpa using hcs c hc
    unfold Tidy at h
    rw [endings_append, endings_cons, endings_append, hnone, endings_cons b, ending, if_pos hk] at h
    rw [Option.any_some, Bool.eq_false_iff]
    intro hsemicolon
    cases b with
    | node => cases hsemicolon
    | leaf t =>
      have hmark : t.kind = .mark ∧ t.text = [';'] := by
        simpa [OneLine.isSemicolon, isMark] using hsemicolon
      have hending : ending (.leaf t) = some .semicolon := by simp [ending, hmark]
      rw [hending] at h
      exact (List.isChain_append_cons_cons.1 h).2.1 ⟨rfl, rfl⟩

end Tree

/-! ### Recasting -/

namespace Recast
open Tree

theorem Kind.holdsSemicolon_of_turnsInto {k l : Kind} (h : k.turnsInto l = true) :
    k.holdsSemicolon = l.holdsSemicolon := by
  unfold Kind.turnsInto at h
  split at h <;> first | rfl | cases h

theorem Kind.holdsSemicolon_of_isRenamed {k l : Kind} (h : k.isRenamed l = true) :
    k.holdsSemicolon = l.holdsSemicolon := by
  unfold Kind.isRenamed at h
  split at h <;> first | rfl | cases h

theorem Gives.ending {t u : Tree} (h : Gives t u) : u.ending = t.ending := by
  cases h with
  | same => rfl
  | renamed hk => simp only [Tree.ending, Kind.holdsSemicolon_of_isRenamed hk]
  | node hk => simp only [Tree.ending, Kind.holdsSemicolon_of_turnsInto hk]
  | sequence => rfl

theorem GivesAll.endings {ts us : List Tree} (h : GivesAll ts us) : endings us = endings ts := by
  cases h with
  | nil => rfl
  | cons h hs => rw [endings_cons, endings_cons, h.ending, hs.endings]

/-- A row of trees is to the statements around it what it is without its comments. -/
theorem endings_trimmed (ts : List Tree) : endings (trimmed ts) = endings ts := by
  conv => rhs; rw [← comments_around ts]
  rw [endings_append, endings_append, endings_comments fun c hc => List.mem_takeWhile_imp hc,
    endings_comments fun c hc => List.mem_takeWhile_imp (List.mem_reverse.1 hc), List.nil_append,
    List.append_nil]

theorem endings_groupSequence (ts : List Tree) : endings (groupSequence ts) = [.other] := by
  rw [groupSequence, endings_append, endings_cons, endings_comments fun c hc => List.mem_takeWhile_imp hc,
    endings_comments fun c hc => List.mem_takeWhile_imp (List.mem_reverse.1 hc)]
  rfl

end Recast

theorem tidy_kept : Kept Tree.IsTidy where
  leaf t := .nil
  renamed _ h := h
  node := by
    intro k l ts us _ hs h
    unfold Tree.IsTidy Tree.Tidy at h ⊢
    rwa [Tree.children, hs.endings]
  sequence := by
    intro ts h
    unfold Tree.IsTidy Tree.Tidy Tree.children at h ⊢
    rw [← Recast.take_inner_drop ts, Tree.endings_append, Tree.endings_append] at h
    obtain ⟨hopening, hrest, -⟩ := List.isChain_append.1 h
    obtain ⟨hinner, hclosing, -⟩ := List.isChain_append.1 hrest
    rw [Recast.endings_trimmed, Tree.endings_append, Tree.endings_append, Recast.endings_groupSequence,
      List.append_assoc]
    refine ⟨hinner, List.isChain_append.2 ⟨hopening, List.isChain_cons.2 ⟨?_, hclosing⟩, ?_⟩⟩
    · rintro _ - ⟨hc, -⟩
      cases hc
    · rintro _ - _ ⟨⟩ ⟨-, hc⟩
      cases hc

/-! ### Steps -/

/-- What reads a semicolon reads one that stands alone. -/
theorem Leaf.ReadBy.isSome_semicolon {reads : Reads} (h : Leaf.mark.ReadBy reads) {t r : Text}
    (ht : reads t = some ([';'], r)) : (reads [';']).isSome = true := by
  cases h with
  | exactly =>
    obtain ⟨rfl, -⟩ := Lexeme.exactly_eq_some ht
    rfl
  | operator s =>
    obtain ⟨w, hw, ht⟩ := Option.bind_eq_some_iff.1 ht
    split at ht
    · rename_i hs
      obtain ⟨hs', -⟩ := Lexeme.exactly_eq_some ht
      subst hs' hs
      exact absurd (List.mem_of_find?_eq_some hw) (by decide)
    · cases ht
  | keyword s =>
    obtain ⟨hs, rfl⟩ := Lexeme.word_eq_some ht
    rw [← hs] at ht
    cases ht
  | staticGet =>
    have htext := (Lexeme.takes_staticGet ht).2
    subst htext
    cases ht

/-- What a token makes of whether the last tree that is no comment may be a statement that holds its
semicolon; `none` if it may then be a semicolon behind it. -/
def Leaf.tops : Leaf → Reads → Bool → Option Bool
  | .mark, reads, top => if top && (reads [';']).isSome then none else some false
  | .comment, _, top | .markupComment, _, top => some top
  | _, _, _ => some false

/-- What a step makes of it. -/
def Step.tops (a : Step) (top : Bool) : Option Bool :=
  match a with
  | .token k reads | .glued k reads => k.tops reads top
  | .question _ | .opening => some false
  | .finish k => some k.holdsSemicolon
  | .comment _ | .gap _ | .insertion _ | .closing _ | .adopt _ | .recast _ | .last _ => some top

namespace Reader

/-- All trees that have been read are in order, and so are the rows of open nodes. -/
structure IsTidy (s : Reader) : Prop where
  items : Tree.Tidy s.items.reverse
  outer : ∀ ts ∈ s.outer, Tree.Tidy ts.reverse
  every : s.Every Tree.IsTidy

/-- Unless `top` says that it may be one, the last tree that is no comment is no statement that holds its
semicolon. -/
def Tops (top : Bool) (s : Reader) : Prop := top = false → (Tree.endings s.items).head? ≠ some .statement

theorem Notes.endings {s s' : Reader} (h : Notes s s') : Tree.endings s'.items = Tree.endings s.items := by
  obtain ⟨⟨cs, hitems, hcs⟩, -⟩ := h
  rw [hitems, Tree.endings_append, Tree.endings_comments, List.nil_append]
  intro c hc
  obtain ⟨_, -, hcomment⟩ := hcs c hc
  exact hcomment

/-- A row of trees with a token more is in order, unless the token is a semicolon behind a statement. -/
theorem tidy_push {ts : List Tree} {t : Token} (h : Tree.Tidy ts.reverse)
    (ht : Tree.ending (.leaf t) = some .semicolon → (Tree.endings ts).head? ≠ some .statement) :
    Tree.Tidy (Tree.leaf t :: ts).reverse := by
  rw [Tree.tidy_reverse] at h ⊢
  rw [Tree.endings_cons]
  cases hending : Tree.ending (.leaf t) with
  | none => exact h
  | some e =>
    refine List.isChain_cons.2 ⟨?_, h⟩
    rintro f hf ⟨rfl, rfl⟩
    exact ht hending hf

theorem take_tops {k : Leaf} {reads : Reads} {top top' : Bool} {s s' : Reader} (hread : k.ReadBy reads)
    (htop : k.tops reads top = some top') (hflag : s.Tops top) (hs : Tree.Tidy s.items.reverse)
    (h : s.take k reads = some s') :
    Tree.Tidy s'.items.reverse ∧ s'.outer = s.outer ∧ s'.Tops top' := by
  obtain ⟨⟨w, r⟩, hw, rfl⟩ := Option.map_eq_some_iff.1 h
  refine ⟨tidy_push hs ?_, rfl, ?_⟩
  · intro hending hhead
    have hmark : k = .mark ∧ w = [';'] := by
      rw [Tree.ending] at hending
      split at hending
      · cases hending
      · split at hending
        · assumption
        · cases hending
    obtain ⟨rfl, rfl⟩ := hmark
    cases top with
    | false => exact hflag rfl hhead
    | true =>
      rw [Leaf.tops, hread.isSome_semicolon hw] at htop
      cases htop
  · rintro rfl
    change (Tree.endings (.leaf _ :: s.items)).head? ≠ _
    rw [Tree.endings_cons, Tree.ending]
    split
    · rename_i hcomment
      refine hflag ?_
      rcases hcomment with hk | hk <;> (change k = _ at hk; subst hk; exact Option.some.inj htop)
    · split <;> simp

end Reader

open Reader

/-- Every step keeps the trees in order, if it reads no semicolon behind a statement. -/
theorem Step.keeps_tidy {a : Step} {top top' : Bool} {s s' : Reader} (ha : a.Lexical)
    (htop : a.tops top = some top') (hs : s.IsTidy) (hflag : s.Tops top) (h : a.run s = some s') :
    s'.IsTidy ∧ s'.Tops top' := by
  have hevery : s'.Every Tree.IsTidy := a.every tidy_kept (fun k _ => hs.items) h hs.every
  have noted {t : Reader} (hn : Notes s t) :
      Tree.Tidy t.items.reverse ∧ (∀ ts ∈ t.outer, Tree.Tidy ts.reverse) ∧ t.Tops top := by
    refine ⟨?_, hn.outer ▸ hs.outer, ?_⟩
    · rw [Tree.tidy_reverse, hn.endings, ← Tree.tidy_reverse]
      exact hs.items
    · rw [Tops, hn.endings]
      exact hflag
  have same (hn : Notes s s') (ht : some top = some top') : s'.IsTidy ∧ s'.Tops top' := by
    cases ht
    obtain ⟨hitems, houter, hflag⟩ := noted hn
    exact ⟨⟨hitems, houter, hevery⟩, hflag⟩
  cases a with
  | token k reads =>
    obtain ⟨t, ht, h⟩ := Option.bind_eq_some_iff.1 h
    obtain ⟨hitems, houter, hflag⟩ := noted (notes_settle ht)
    obtain ⟨hitems, houter', hflag⟩ := take_tops ha htop hflag hitems h
    exact ⟨⟨hitems, houter' ▸ houter, hevery⟩, hflag⟩
  | glued k reads =>
    simp only [Step.run] at h
    split at h
    · obtain ⟨hitems, houter, hflag⟩ := take_tops ha htop hflag hs.items h
      exact ⟨⟨hitems, houter ▸ hs.outer, hevery⟩, hflag⟩
    · cases h
  | comment g => exact same (notes_comment h) htop
  | gap g => exact same (notes_settle h) htop
  | question semicolon =>
    obtain ⟨passed, rest, w, r, -, hw, rfl⟩ := exists_of_question h
    cases htop
    obtain rfl := Lexeme.question_eq_some hw
    exact ⟨⟨tidy_push hs.items (fun hc => by cases hc), hs.outer, hevery⟩, fun _ hc => by cases hc⟩
  | insertion operator => exact same (notes_insertion h) htop
  | closing operator =>
    simp only [Step.run, Option.orElse_eq_orElse, Option.orElse_eq_or, Option.or_eq_some_iff] at h
    rcases h with h | ⟨-, h⟩
    · exact same (notes_insertion h) htop
    · cases h
      exact same ⟨⟨[], rfl, by simp⟩, rfl⟩ htop
  | opening =>
    cases h
    cases htop
    exact ⟨⟨.nil, List.forall_mem_cons.2 ⟨hs.items, hs.outer⟩, hevery⟩, fun _ hc => by cases hc⟩
  | adopt n =>
    obtain ⟨⟨us, vs⟩, hp, h⟩ := Option.bind_eq_some_iff.1 h
    cases h
    cases htop
    have hitems := hs.items
    rw [← splitLast_append hp, Tree.tidy_reverse, Tree.endings_append] at hitems
    obtain ⟨hus, hvs, -⟩ := List.isChain_append.1 hitems
    refine ⟨⟨Tree.tidy_reverse.2 hus, List.forall_mem_cons.2 ⟨Tree.tidy_reverse.2 hvs, hs.outer⟩, hevery⟩, ?_⟩
    intro htop hc
    refine hflag htop ?_
    rw [← splitLast_append hp, Tree.endings_append, List.head?_append, hc]
    rfl
  | finish k =>
    simp only [Step.run] at h
    split at h
    · cases h
    · rename_i ts us houter
      cases h
      cases htop
      have hlevels := hs.outer
      rw [houter] at hlevels
      obtain ⟨hts, hus⟩ := List.forall_mem_cons.1 hlevels
      refine ⟨⟨?_, hus, hevery⟩, ?_⟩
      · rw [Tree.tidy_reverse] at hts ⊢
        rw [Tree.endings_cons]
        refine List.isChain_cons.2 ⟨?_, hts⟩
        rintro f - ⟨-, hc⟩
        split at hc <;> cases hc
      · intro hk hc
        rw [Tree.endings_cons, Tree.ending, hk] at hc
        cases hc
  | recast r =>
    cases htop
    obtain ⟨us, hus, rfl⟩ := Option.map_eq_some_iff.1 h
    obtain ⟨xs, t, u, ys, hts, rfl, hu⟩ := exists_of_recastLast hus
    have hending : Tree.endings (xs ++ u :: ys) = Tree.endings s.items := by
      rw [hts, Tree.endings_append, Tree.endings_append, Tree.endings_cons, Tree.endings_cons,
        (Recast.apply_gives hu).ending]
    refine ⟨⟨?_, hs.outer, hevery⟩, ?_⟩
    · rw [Tree.tidy_reverse, hending, ← Tree.tidy_reverse]
      exact hs.items
    · rw [Tops, hending]
      exact hflag
  | last p =>
    simp only [Step.run] at h
    split at h
    · cases h
      exact same (.refl s) htop
    · cases h

/-! ### Rules -/

/-- What a rule makes of whether the last tree may be such a statement, if the parts that `enters` holds of
may stand behind one and those that `exits` holds of may leave one. -/
def Rule.tops {σ : Type} (enters exits : σ → Bool) : Rule σ → Bool → Option Bool
  | .empty, top | .present _, top | .absent _, top => some top
  | .step a, top => a.tops top
  | .part p, top => if top && !enters p then none else some (exits p)
  | .seq a b, top => (a.tops enters exits top).bind (b.tops enters exits)
  | .alt a b, top => (a.tops enters exits top).bind fun x => (b.tops enters exits top).map (x || ·)
  | .many a, top =>
    (a.tops enters exits top).bind fun x =>
      if x && !top then (a.tops enters exits true).map fun _ => true else some top

theorem Reader.Tops.weaken {top top' : Bool} {s : Reader} (h : s.Tops top) (htop : top = true → top' = true) :
    s.Tops top' := by
  rintro rfl
  cases top with
  | false => exact h rfl
  | true => cases htop rfl

/-- Where the parts of a grammar leave what they are said to leave, every rule keeps the trees in order. -/
theorem Rule.run_tidy {σ : Type} {g : σ → Rule σ} {enters exits : σ → Bool}
    (hlexical : ∀ p, (g p).IsLexical)
    (hparts : ∀ p, (g p).tops enters exits (enters p) = some (exits p)) {n : Nat} {r : Rule σ}
    {top top' : Bool} {s s' : Reader} (hr : r.IsLexical) (htop : r.tops enters exits top = some top')
    (hs : s.IsTidy) (hflag : s.Tops top) (h : r.run g n s = some s') : s'.IsTidy ∧ s'.Tops top' := by
  induction n generalizing r top top' s s' with
  | zero => cases h
  | succ n ih =>
    cases r with
    | empty => cases htop; cases h; exact ⟨hs, hflag⟩
    | step a => exact a.keeps_tidy hr htop hs hflag h
    | part p =>
      simp only [tops] at htop
      split at htop
      · cases htop
      · rename_i henters
        cases htop
        refine ih (hlexical p) (hparts p) hs (hflag.weaken ?_) h
        rintro rfl
        simpa using henters
    | seq a b =>
      obtain ⟨mid, ha, hb⟩ := Option.bind_eq_some_iff.1 htop
      simp only [run] at h
      split at h
      · rename_i t ht
        obtain ⟨hmid, hflag⟩ := ih hr.1 ha hs hflag ht
        exact ih hr.2 hb hmid hflag h
      · cases h
    | alt a b =>
      obtain ⟨x, ha, hmap⟩ := Option.bind_eq_some_iff.1 htop
      obtain ⟨y, hb, rfl⟩ := Option.map_eq_some_iff.1 hmap
      simp only [run] at h
      split at h
      · rename_i t ht
        cases h
        obtain ⟨ht, hx⟩ := ih hr.1 ha hs hflag ht
        exact ⟨ht, hx.weaken fun hx => by simp [hx]⟩
      · obtain ⟨ht, hy⟩ := ih hr.2 hb hs hflag h
        exact ⟨ht, hy.weaken fun hy => by simp [hy]⟩
    | many a =>
      have hr' : a.IsLexical := hr
      obtain ⟨x, ha, hx⟩ := Option.bind_eq_some_iff.1 htop
      -- What holds behind one reading holds behind any number of them.
      obtain ⟨y, hstable, hafter, hbefore⟩ : ∃ y, a.tops enters exits top' = some y ∧
          (y = true → top' = true) ∧ (top = true → top' = true) := by
        split at hx
        · obtain ⟨y, hy, rfl⟩ := Option.map_eq_some_iff.1 hx
          exact ⟨y, hy, fun _ => rfl, fun _ => rfl⟩
        · rename_i hxtop
          cases hx
          refine ⟨x, ha, ?_, id⟩
          rintro rfl
          simpa using hxtop
      have hflag' := hflag.weaken hbefore
      have hmany : (Rule.many a).tops enters exits top' = some top' := by
        simp only [tops, hstable, Option.bind_some]
        split
        · rename_i hy
          simp only [Bool.and_eq_true, Bool.not_eq_true'] at hy
          rw [hafter hy.1] at hy
          cases hy.2
        · rfl
      simp only [run] at h
      split at h
      · rename_i t ht
        obtain ⟨ht', hy⟩ := ih hr' hstable hs hflag' ht
        split at h
        · exact ih (r := .many a) hr hmany ht' (hy.weaken hafter) h
        · cases h
          exact ⟨ht', hy.weaken hafter⟩
      · cases h
        exact ⟨hs, hflag'⟩
    | present a =>
      cases htop
      simp only [run] at h
      split at h
      · cases h; exact ⟨hs, hflag⟩
      · cases h
    | absent a =>
      cases htop
      simp only [run] at h
      split at h
      · cases h
      · cases h; exact ⟨hs, hflag⟩

/-! ### The grammar -/

namespace Grammar
open Rule

/-- The parts that may stand behind a statement: not the members of a class, which may be semicolons, nor
what goes on with an expression. -/
def Part.enters : Part → Bool
  | .classMember | .continuation _ _ => false
  | _ => true

/-- Only a statement leaves a statement. -/
def Part.exits : Part → Bool
  | .statement _ => true
  | _ => false

private theorem continuation_tops (c : Ctx) (level : Nat) :
    (continuation c level).tops Part.enters Part.exits false = some false := by
  refine continuation_of_forall (C := fun r => r.tops Part.enters Part.exits false = some false)
    ?_ ?_ ?_ ?_ ?_ ?_ ?_ ?_ ?_ ?_ c level
  · intro r r' h h'
    change (r.tops Part.enters Part.exits false).bind
      (fun x => (r'.tops Part.enters Part.exits false).map (x || ·)) = some false
    rw [h, h']
    rfl
  · exact fun c => rfl
  · exact fun c r h => h
  · rintro ⟨_, _, noCall⟩
    cases noCall <;> rfl
  · intro c r hr
    fin_cases hr <;> rfl
  · rfl
  · exact fun c => rfl
  · intro c l hl
    fin_cases hl <;> rfl
  · exact fun c n s => rfl
  · rfl

theorem part_tops (p : Part) : (grammar p).tops Part.enters Part.exits p.enters = some p.exits := by
  cases p with
  | continuation c level => exact continuation_tops c level
  | statement inCase => cases inCase <;> rfl
  | functionForm r => cases r <;> rfl
  | classForm r => cases r <;> rfl
  | _ => rfl

end Grammar

/-- In the tree of a source no semicolon stands behind a statement that holds its own. -/
theorem parse_tidy {source : Text} {tree : Tree} (h : parse source = some tree) :
    tree.Every Tree.IsTidy := by
  unfold parse at h
  split at h
  · rename_i s hs
    simp only at h
    split at h
    · cases h
      have hstart : (ofText source).IsTidy :=
        ⟨.nil, List.forall_mem_nil _, List.forall_mem_nil _⟩
      have hflag : (ofText source).Tops false := fun _ hc => by cases hc
      have htop : Grammar.program.tops Grammar.Part.enters Grammar.Part.exits false = some true := rfl
      obtain ⟨htidy, -⟩ :=
        Rule.run_tidy Grammar.isLexical Grammar.part_tops Grammar.program_isLexical htop hstart hflag hs
      refine Tree.every_node.2 ⟨htidy.items, ?_⟩
      intro t ht
      exact htidy.every t (by simp [Reader.trees, List.mem_reverse.1 ht])
    · cases h
  · cases h

end ServerSplit.Js
