import ServerSplit.Proofs.Js.Semicolons
import ServerSplit.Proofs.Nesting

/-! Functions inside functions. What a function is on one line is a part of what the function around it is on
one line, so a marked function that is left in another one is taken out with that one, letter for letter. -/
namespace ServerSplit

open Js (Tree Kind)
open Js.Tree

namespace Js.OneLine

/-- The items begin with a word. -/
def StartsWithWord (is : List Item) : Prop := ∃ w js, is = .word w :: js

theorem StartsWithWord.append {is : List Item} (h : StartsWithWord is) (js : List Item) :
    StartsWithWord (is ++ js) := by
  obtain ⟨w, is, rfl⟩ := h
  exact ⟨w, is ++ js, rfl⟩

mutual

/-- No statement ends before the first word of a tree without empty nodes. -/
theorem items_start (parent : Option Kind) (behind : List Tree) {t : Tree} (h : Full t)
    (ht : t.isLeaf .comment = false) : StartsWithWord (items parent behind t) := by
  cases t with
  | leaf t =>
    have hk : ¬ t.kind = .comment := of_decide_eq_false ht
    rw [items, if_neg hk]
    exact ⟨_, [], rfl⟩
  | node k ts =>
    obtain ⟨hleast, hts⟩ := h
    rw [items]
    split
    · exact ⟨_, [], rfl⟩
    · have hpos : 0 < solid ts := Nat.lt_of_lt_of_le (by exact_mod_cast k.least_pos) (by exact_mod_cast hleast)
      obtain ⟨t, ht, hsolid⟩ := List.countP_pos_iff.1 hpos
      have hnone : t.isLeaf .comment = false := by
        rw [Bool.not_eq_true', isComment, Bool.or_eq_false_iff] at hsolid
        exact hsolid.1
      exact (itemsOf_start (some k) hts ⟨t, ht, hnone⟩).append _

theorem itemsOf_start (parent : Option Kind) {ts : List Tree} (h : FullAll ts)
    (hts : ∃ t ∈ ts, t.isLeaf .comment = false) : StartsWithWord (itemsOf parent ts) := by
  cases ts with
  | nil => simp at hts
  | cons t ts =>
    rw [itemsOf]
    by_cases ht : t.isLeaf .comment = true
    · have hnil : items parent ts t = [] := by
        cases t with
        | leaf t => rw [items, if_pos (of_decide_eq_true ht)]
        | node => cases ht
      rw [hnil]
      refine itemsOf_start parent h.2 ?_
      simpa [ht] using hts
    · exact (items_start parent ts h.1 (by simpa using ht)).append _

end

/-- Behind a word, the line of items is what it is by itself, perhaps with a space before it. -/
theorem line_behind {marked : Site → Bool} {is : List Item} (h : StartsWithWord is) (last : Option Word) :
    ∃ gap, line marked last is = gap ++ line marked none is := by
  obtain ⟨w, is, rfl⟩ := h
  exact ⟨between last w, by rw [line, line, between, List.nil_append, List.append_assoc]⟩

/-- The line of a part of the items is a part of their line. -/
theorem line_infix {marked : Site → Bool} {is : List Item} (h : StartsWithWord is) (pre post : List Item) :
    line marked none is <:+: line marked none (pre ++ (is ++ post)) := by
  obtain ⟨gap, hgap⟩ := @line_behind marked is h (lastWord none pre)
  rw [line_append, line_append, hgap]
  exact ⟨line marked none pre ++ gap, line marked (lastWord (lastWord none pre) is) post, by simp⟩

/-- A function on one line is a part of each function around it on one line. -/
theorem oneLine_infix {source : Text} {tree f g : Tree} (h : parse source = some tree) (hf : Holds tree f)
    (hfunction : f.isFunction = true) (hg : Holds f g) (hg' : g.isFunction = true) (next next' : Option Tree) :
    g.oneLine next <:+: f.oneLine next' := by
  have hliteral : f.Every IsLiteral := fun u hu => parse_literal h u (hf.trans hu)
  have hfull : Full g := by
    obtain ⟨ts, b, rfl, hplaced, -⟩ := parse_placed h
    cases hf with
    | refl => cases hfunction
    | child ht hf =>
      obtain ⟨n, -, hn⟩ := hplaced.placed_of_mem ht
      obtain ⟨m, -, hm⟩ := hn.holds (hf.trans hg)
      exact hm.1
  cases g with
  | leaf t => cases hg'
  | node k ts =>
    obtain ⟨p, b, pre, post, hitems⟩ := items_of_holds hliteral hg none next'.toList
    have hself : items p b (.node k ts) = items none next.toList (.node k ts) := by
      cases k <;> first | rfl | cases hg'
    rw [oneLine_eq_line (parse_ordered h (hf.trans hg)), oneLine_eq_line (parse_ordered h hf), hitems, hself]
    exact line_infix (items_start none _ hfull rfl) pre post

end Js.OneLine

namespace Pass

open Directive

/-- The marker is beyond the first one of a function of the tree, and `x` is what is taken out of that one. -/
structure Absorbs (directive path source : Text) (tree : Tree) (m : Marker) (x : Extracted) : Prop where
  marker : m ∈ markers directive tree
  owner : ∃ f ∈ topmost directive tree, Extracted.ofFunction? path source f = some x ∧ Holds f m.owner

/-- Whether or not all functions are taken out, the reports are of markers that those taken out absorb. -/
theorem takeEach_reports (path source : Text) (p : Pass) (fs : List Tree) :
    ∃ inner : List (Marker × Extracted),
      nestings (takeEach path source p fs).1.diagnostics =
        nestings p.diagnostics ++ inner.map (fun e => nested path source e.1 e.2.line) ∧
      ∀ e ∈ inner, ∃ f ∈ fs, Extracted.ofFunction? path source f = some e.2 ∧
        e.1 ∈ within p.config.directive f := by
  induction fs generalizing p with
  | nil => exact ⟨[], by simp [takeEach], by simp⟩
  | cons f fs ih =>
    unfold takeEach
    cases hone : takeOne path source p f with
    | mk q r =>
      cases r with
      | error e =>
        -- a function that cannot be taken out or registered ends the run before its markers are reported
        have hq : nestings q.diagnostics = nestings p.diagnostics := by
          unfold takeOne at hone
          split at hone
          · cases hone
            rfl
          · rename_i x _
            have hregister := register_nestings p path x
            split at hone
            · rename_i hr
              cases hone
              rw [hr] at hregister
              exact hregister
            · cases hone
        exact ⟨[], by simpa using hq, by simp⟩
      | ok x =>
        obtain ⟨inner, hinner, hmem⟩ := ih q
        have hconfig : q.config = p.config := (takeOne_adds hone).config
        have hx : Extracted.ofFunction? path source f = some x := by
          unfold takeOne at hone
          split at hone
          · cases hone
          · rename_i y hy
            split at hone <;> cases hone
            exact extract_ok hy
        refine ⟨((within p.config.directive f).drop 1).map (·, x) ++ inner, ?_, ?_⟩
        · simp only [Prod.map_fst, id_eq, hinner, takeOne_nestings hone, List.map_append, List.map_map,
            List.append_assoc]
          rfl
        · refine List.forall_mem_append.2 ⟨List.forall_mem_map.2 fun m hm => ?_, fun e he => ?_⟩
          · exact ⟨f, by simp, hx, List.mem_of_mem_drop hm⟩
          · obtain ⟨g, hg, hge, hwithin⟩ := hmem e he
            exact ⟨g, by simp [hg], hge, hconfig ▸ hwithin⟩

/-- A function inside another one is on one line as it is on the one line of that one. So each report that a
directive stays part of the function around it, whether or not the file can be rewritten, is of a function
whose text stands in the text that is taken out. -/
theorem process_absorbs {source : Text} {tree : Tree} (h : Js.parse source = some tree) :
    (∀ f g next next', Holds tree f → f.isFunction = true → Holds f g → g.isFunction = true →
      g.oneLine next <:+: f.oneLine next') ∧
    ∀ (p : Pass) (path : Text), ∃ inner : List (Marker × Extracted),
      nestings (p.process ⟨path, source⟩).1.diagnostics =
        nestings p.diagnostics ++ inner.map (fun e => nested path source e.1 e.2.line) ∧
      ∀ e ∈ inner, Absorbs p.config.directive path source tree e.1 e.2 ∧ encloses e.2 e.1.owner = true ∧
        e.1.owner.oneLine none <:+: e.2.sourceText := by
  have hpart (f g : Tree) (next next' : Option Tree) (hf : Holds tree f) (hfunction : f.isFunction = true)
      (hg : Holds f g) (hg' : g.isFunction = true) : g.oneLine next <:+: f.oneLine next' :=
    Js.OneLine.oneLine_infix h hf hfunction hg hg' next next'
  refine ⟨hpart, fun p path => ?_⟩
  have hread : Js.read source = .ok tree := by simp [Js.read, h]
  have horphans : nestings (p.reportOrphans ⟨path, source⟩ tree).diagnostics = nestings p.diagnostics :=
    filter_reportAll p fun d hd => by simp [kind_of_mem_orphans hd]
  obtain ⟨inner, hinner, hmem⟩ := takeEach_reports path source (p.reportOrphans ⟨path, source⟩ tree)
    (topmost p.config.directive tree)
  refine ⟨inner, ?_, fun e he => ?_⟩
  · simp only [process_eq, hread, Prod.map_fst, id_eq, hinner, horphans]
  · obtain ⟨f, hf, hx, hwithin⟩ := hmem e he
    obtain ⟨⟨n, hplaced⟩, hmarked⟩ := topmost_placed p.config.directive h f hf
    obtain ⟨g, hg, hown⟩ := List.mem_flatMap.1 hwithin
    obtain ⟨hheld, hg'⟩ := mem_collect.1 hg
    obtain rfl := owner_of_own hown
    have htree : Holds tree f := (holds_of_outermost hf).1
    have hfunction : f.isFunction = true := (Bool.and_eq_true_iff.1 hmarked).1
    refine ⟨⟨?_, f, hf, hx, hheld⟩, ?_, ?_⟩
    · refine (markers_perm _ _).mem_iff.2 (List.mem_flatMap.2 ⟨e.1.owner, ?_, hown⟩)
      exact mem_collect.2 ⟨htree.trans hheld, hg'⟩
    · obtain ⟨hstart, hstop⟩ := span_ofFunction hx
      obtain ⟨hle, -, hle'⟩ := hplaced.bounds hheld
      simp [encloses, hstart, hstop, hle, hle']
    · obtain ⟨name, -, hx⟩ := Option.map_eq_some_iff.1 hx
      rw [← hx]
      exact hpart f e.1.owner none none htree hfunction hheld hg'

private def innerFile : Artifact :=
  ⟨"a.js".toList, "function f(a=\x60$\x7bfunction g()\x7b'd'\n/**/x\x7d\x7d\x60)\x7b'd'\x7d".toList⟩

/-- A marked function in a template in the parameters of another one. -/
theorem process_absorbs_template :
    ∃ tree f g, Js.parse innerFile.source = some tree ∧ Holds tree f ∧ Holds f g ∧
      f.isFunction = true ∧ g.isFunction = true ∧ g.oneLine none = "function g()\x7b'd'; x;\x7d".toList ∧
      g.oneLine none <:+: f.oneLine none := by
  have hfound : (Js.parse innerFile.source).any (fun tree => tree.functions.any fun f =>
      f.children.any (·.isKind .parameters) && f.functions.any fun g =>
        decide (g.oneLine none = "function g()\x7b'd'; x;\x7d".toList)) = true := by
    decide +kernel
  obtain ⟨tree, hparse, hfound⟩ := (Option.any_eq_true _ _).1 hfound
  obtain ⟨f, hf, hfound⟩ := List.any_eq_true.1 hfound
  obtain ⟨g, hg, hline⟩ := List.any_eq_true.1 (Bool.and_eq_true_iff.1 hfound).2
  obtain ⟨hf, hf'⟩ := mem_collect.1 hf
  obtain ⟨hg, hg'⟩ := mem_collect.1 hg
  exact ⟨tree, f, g, hparse, hf, hg, hf', hg', of_decide_eq_true hline,
    (process_absorbs hparse).1 f g none none hf hf' hg hg'⟩

end Pass
end ServerSplit
