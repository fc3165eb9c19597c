import ServerSplit.Proofs.Js.Words
import ServerSplit.Proofs.TakeOut
import ServerSplit.Proofs.Text.Replace

/-! Which statements get a semicolon. In the tree of a source a statement that is ended without a semicolon
gets one, and so does a field whose semicolon stands behind a comment. -/
namespace ServerSplit.Js.OneLine

open Tree

theorem isComment_of_isSemicolon {t : Tree} (h : isSemicolon t = true) : t.isComment = false := by
  cases t with
  | leaf t =>
    simp only [isSemicolon, isMark, Bool.and_eq_true, decide_eq_true_eq] at h
    simp [isComment, isLeaf, h.1]
  | node => rfl

/-- Where the first tree of one sort is a semicolon, the first of a narrower sort is one too, if semicolons are
of that sort. -/
theorem any_find_semicolon {p q : Tree → Bool} (hqp : ∀ t, q t = true → p t = true)
    (hq : ∀ t, isSemicolon t = true → q t = true) {ts : List Tree} (h : (ts.find? p).any isSemicolon = true) :
    (ts.find? q).any isSemicolon = true := by
  induction ts with
  | nil => cases h
  | cons t ts ih =>
    rw [List.find?_cons] at h ⊢
    cases hpt : p t with
    | true =>
      rw [hpt] at h
      rw [hq t h]
      exact h
    | false =>
      have hqt : q t = false := by
        rw [Bool.eq_false_iff]
        intro hqt
        rw [hqp t hqt] at hpt
        cases hpt
      rw [hpt] at h
      rw [hqt]
      exact ih h

namespace Site

/-- The last token of the statement, comments apart, is a semicolon. -/
def isClosed (s : Site) : Bool := (s.children.reverse.find? (!·.isLeaf .comment)).any isSemicolon

/-- Behind the statement stands a semicolon, perhaps with comments before it. -/
def isFollowed (s : Site) : Bool := (s.behind.find? (!·.isComment)).any isSemicolon

/-- The source has a semicolon for the statement: in it, or behind it if it is a field. -/
def isEnded (s : Site) : Bool := s.isClosed || s.kind = .fieldDefinition && s.isFollowed

/-- The statement is a field, and a comment stands before its semicolon. -/
def isLate (s : Site) : Bool :=
  s.kind = .fieldDefinition && !s.isClosed && s.isFollowed && !s.behind.head?.any isSemicolon

theorem isFollowed_of_head {s : Site} (h : s.behind.head?.any isSemicolon = true) : s.isFollowed = true := by
  refine any_find_semicolon (p := fun _ => true) (fun _ _ => rfl) (fun t ht => ?_) ?_
  · simp [isComment_of_isSemicolon ht]
  · rwa [← List.head?_filter, List.filter_true]

/-- A statement that no semicolon follows, unless it is a field, lacks a semicolon where the source has none
for it, and where the one that it has stands behind a comment. -/
theorem lacks_eq {s : Site} (hkind : s.kind.takesSemicolon = true)
    (hbehind : s.kind ≠ .fieldDefinition → s.isFollowed = false) :
    s.lacks = (!s.isEnded || s.isLate) := by
  have hlacks : s.lacks = (!s.isClosed && !s.behind.head?.any isSemicolon) := by
    rw [lacks, lacksSemicolon, hkind]
    rfl
  rw [hlacks]
  by_cases hfield : s.kind = .fieldDefinition
  · cases hhead : s.behind.head?.any isSemicolon with
    | true => cases hclosed : s.isClosed <;> simp [isEnded, isLate, hfield, hclosed, hhead, isFollowed_of_head hhead]
    | false =>
      cases hclosed : s.isClosed <;> cases hfollowed : s.isFollowed <;>
        simp [isEnded, isLate, hfield, hclosed, hfollowed, hhead]
  · have hhead : s.behind.head?.any isSemicolon = false := by
      rw [Bool.eq_false_iff]
      intro hhead
      have hfollowed := isFollowed_of_head hhead
      rw [hbehind hfield] at hfollowed
      cases hfollowed
    simp [isEnded, isLate, hfield, hhead]

theorem isEnded_of_isLate {s : Site} (h : s.isLate = true) : s.isEnded = true := by
  simp only [isLate, Bool.and_eq_true] at h
  simp [isEnded, h.1.1.1, h.1.2]

/-- No statement is both. -/
theorem countP_lacks (ss : List Site) : ss.countP (fun s => !s.isEnded || s.isLate) =
    ss.countP (!·.isEnded) + ss.countP (·.isLate) := by
  induction ss with
  | nil => rfl
  | cons s ss ih =>
    simp only [List.countP_cons, ih]
    cases hlate : s.isLate with
    | true => simp [isEnded_of_isLate hlate]; omega
    | false => simp; omega

end Site

/-- In the tree of a source nothing but a field leaves its semicolon to the tree behind it. -/
theorem isFollowed_of_parse {source : Text} {tree f : Tree} (h : parse source = some tree)
    (hf : Holds tree f) {s : Site} (hs : s.In f) (hkind : s.kind.takesSemicolon = true)
    (hfield : s.kind ≠ .fieldDefinition) : s.isFollowed = false := by
  obtain ⟨k, as, hnode⟩ := hs
  have htidy : Tidy (as ++ .node s.kind s.children :: s.behind) := parse_tidy h _ (hf.trans hnode)
  refine htidy.behind ?_
  simp [Kind.holdsSemicolon, hkind, hfield]

/-! ### Counting -/

theorem count_withoutContinuations (t : Text) : (withoutContinuations t).count ';' = t.count ';' := by
  simp only [withoutContinuations]
  rw [Text.count_replace (by simp) (by simp) (by simp), Text.count_replace (by simp) (by simp) (by simp),
    Text.count_replace (by simp) (by simp) (by simp)]

theorem count_replaceLineEnds {new : Text} (hnew : ';' ∉ new) (t : Text) :
    (replaceLineEnds new t).count ';' = t.count ';' := by
  simp only [replaceLineEnds]
  rw [Text.count_replace (by simp) (by simp) hnew, Text.count_replace (by simp) (by simp) hnew,
    Text.count_replace (by simp) (by simp) hnew]

theorem count_tokenText (parent : Option Kind) (t : Token) : (tokenText parent t).count ';' = t.text.count ';' := by
  unfold tokenText
  split
  · exact count_withoutContinuations t.text
  · split
    · exact count_replaceLineEnds (by simp) t.text
    · exact count_replaceLineEnds (by simp) t.text

/-- The text that a word takes in the source. -/
def Word.source (w : Word) : Text :=
  match w.tokens with
  | [] => []
  | u :: us => u.text ++ us.flatMap fun v => v.before ++ v.text

/-- A word is written with the semicolons that it has. -/
theorem Word.Of.count {parent : Option Kind} {t : Tree} {w : Word} (h : w.Of parent t) :
    w.text.count ';' = w.source.count ';' := by
  have htoken (p : Option Kind) (u : Token) : (ofToken p u).text.count ';' = (ofToken p u).source.count ';' := by
    refine (count_tokenText p u).trans ?_
    simp [source, ofToken]
  cases h with
  | alone => exact htoken _ _
  | token => exact htoken _ _
  | @literal k ts _ _ =>
    change (if k = .string then _ else _ : Text).count ';' = (Tree.text (.node k ts)).count ';'
    split
    · exact count_withoutContinuations _
    · exact count_replaceLineEnds (by simp) _

theorem count_flatMap_source {parent : Option Kind} {t : Tree} {ws : List Word} (h : ∀ w ∈ ws, w.Of parent t) :
    (ws.flatMap Word.text).count ';' = (ws.flatMap Word.source).count ';' := by
  induction ws with
  | nil => rfl
  | cons w ws ih =>
    obtain ⟨hw, hws⟩ := List.forall_mem_cons.1 h
    rw [List.flatMap_cons, List.flatMap_cons, List.count_append, List.count_append, hw.count, ih hws]

/-- What stands behind a function makes no difference for it. -/
theorem items_function {f : Tree} (hf : f.isFunction = true) (parent : Option Kind) (behind : List Tree) :
    items parent behind f = items parent [] f := by
  cases f with
  | leaf t => cases hf
  | node k ts => cases k <;> first | rfl | cases hf

/-- On one line, a function has a semicolon behind the last token of each statement for which the source has
none, and of each field whose semicolon stands behind a comment; it has those of its tokens, and no others. -/
theorem oneLine_semicolons {source : Text} {tree f : Tree} (h : parse source = some tree)
    (hf : f ∈ tree.functions) (next : Option Tree) :
    f.oneLine next = line (fun s => !s.isEnded || s.isLate) none (items none [] f) ∧
    (∀ s, s ∈ sites f ↔ s.kind.takesSemicolon = true ∧ s.In f) ∧
    (f.oneLine next).count ';' = ((words f).flatMap Word.source).count ';' +
      (sites f).countP (!·.isEnded) + (sites f).countP (·.isLate) := by
  obtain ⟨hholds, hfunction⟩ := mem_collect.1 hf
  have hliteral : f.Every IsLiteral := fun u hu => parse_literal h u (hholds.trans hu)
  have hlacks : ∀ s, .ends s ∈ items none [] f → s.lacks = (!s.isEnded || s.isLate) := by
    intro s hs
    obtain ⟨hkind, hin⟩ := in_of_mem_function hfunction hs
    exact Site.lacks_eq hkind (isFollowed_of_parse h hholds hin hkind)
  have hline : f.oneLine next = line (fun s => !s.isEnded || s.isLate) none (items none [] f) := by
    rw [oneLine_eq_line (parse_ordered h hholds), items_function hfunction]
    exact line_congr hlacks none
  refine ⟨hline, fun s => ⟨fun hs => ?_, fun hs => mem_sites_of_in hliteral hs.2 hs.1⟩, ?_⟩
  · obtain ⟨i, hi, his⟩ := List.mem_filterMap.1 hs
    cases i with
    | word w => cases his
    | ends s' =>
      cases his
      exact in_of_mem_function hfunction hi
  · have hwords : ((wordsIn (items none [] f)).flatMap Word.text).count ';' =
        ((words f).flatMap Word.source).count ';' :=
      count_flatMap_source fun w hw => of_mem_items hw
    have hsites : (sites f).countP (fun s => !s.isEnded || s.isLate) =
        (sites f).countP (!·.isEnded) + (sites f).countP (·.isLate) := Site.countP_lacks _
    rw [hline, count_line, hwords, ← sites, hsites, Nat.add_assoc]

/-! ### Fields -/

private def fieldsSource : Text := "function f()\x7b'use server';class A\x7ba\nb=1/**/\n;c\x7d\x7d".toList

/-- Of three fields, one ended by its line, one by a semicolon behind a comment and one by the class, all get a
semicolon. -/
theorem oneLine_semicolons_fields : ∃ tree f, parse fieldsSource = some tree ∧ f ∈ tree.functions ∧
    (f.oneLine none).count ';' = 2 + 2 + 1 := by
  have hfound : ((parse fieldsSource).any fun tree => tree.functions.any fun f =>
      decide (((words f).flatMap Word.source).count ';' = 2) &&
        decide ((sites f).countP (!·.isEnded) = 2) && decide ((sites f).countP (·.isLate) = 1)) = true := by
    decide +kernel
  obtain ⟨tree, htree, hfound⟩ := (Option.any_eq_true _ _).1 hfound
  obtain ⟨f, hf, hfound⟩ := List.any_eq_true.1 hfound
  simp only [Bool.and_eq_true, decide_eq_true_eq] at hfound
  obtain ⟨⟨hwords, hended⟩, hlate⟩ := hfound
  obtain ⟨-, -, hcount⟩ := oneLine_semicolons htree hf none
  rw [hwords, hended, hlate] at hcount
  exact ⟨tree, f, htree, hf, hcount⟩

private def lateSource : Text := "function f()\x7b'use server';class A\x7ba=1/**/;b\x7d\x7d".toList

/-- In a function that is taken out, a field that has its semicolon gets another one. -/
theorem oneLine_late_field : ∃ tree f, parse lateSource = some tree ∧
    f ∈ Directive.topmost "use server".toList tree ∧
    (∃ s ∈ sites f, s.kind = .fieldDefinition ∧ s.isEnded = true ∧ s.lacks = true) ∧
    f.oneLine none = "function f()\x7b'use server';class A\x7ba=1; ;b;\x7d\x7d".toList ∧
    (f.oneLine none).count ';' ≠
      ((words f).flatMap Word.source).count ';' + (sites f).countP (!·.isEnded) := by
  have hfound : ((parse lateSource).any fun tree => (Directive.topmost "use server".toList tree).any fun f =>
      ((sites f).any fun s => decide (s.kind = .fieldDefinition) && s.isEnded && s.lacks) &&
        decide (f.oneLine none = "function f()\x7b'use server';class A\x7ba=1; ;b;\x7d\x7d".toList) &&
        decide ((f.oneLine none).count ';' ≠
          ((words f).flatMap Word.source).count ';' + (sites f).countP (!·.isEnded))) = true := by
    decide +kernel
  obtain ⟨tree, htree, hfound⟩ := (Option.any_eq_true _ _).1 hfound
  obtain ⟨f, hf, hfound⟩ := List.any_eq_true.1 hfound
  simp only [Bool.and_eq_true, decide_eq_true_eq] at hfound
  obtain ⟨⟨hsite, hline⟩, hcount⟩ := hfound
  obtain ⟨s, hs, hsite⟩ := List.any_eq_true.1 hsite
  simp only [Bool.and_eq_true, decide_eq_true_eq] at hsite
  exact ⟨tree, f, htree, hf, ⟨s, hs, hsite.1.1, hsite.1.2, hsite.2⟩, hline, hcount⟩

end ServerSplit.Js.OneLine
