import ServerSplit.Proofs.Client
import ServerSplit.Proofs.Js.Sane
import ServerSplit.Proofs.Stub

/-! A file that is rewritten changes. No string leads the body of a stub, so a stub is never the text of
the function that it stands for. -/
namespace ServerSplit

open Js (Tree isGap)
open Js.Tree
open Js.Grammar (Foreign StubHead)
open Directive (topmost inPrologue isMarked)

namespace Text

/-- Every blank is a gap to the parser, but for U+0085, which is a letter to it. -/
theorem isGap_of_isBlank {c : Char} (h : isBlank c = true) : isGap c = true ∨ c = '\u0085' := by
  rw [← Char.toNat_inj]
  simp only [isBlank, blankRanges, List.any_cons, List.any_nil, Bool.or_false, Bool.or_eq_true,
    Bool.and_eq_true, decide_eq_true_eq] at h
  simp only [isGap, Js.gapRanges, List.any_cons, List.any_nil, Bool.or_false, Bool.or_eq_true,
    Bool.and_eq_true, decide_eq_true_eq]
  have hnext : '\u0085'.toNat = 0x85 := rfl
  omega

end Text

open Text

/-! ### The head of a stub -/

theorem foreign_return : Foreign 'r' := ⟨rfl, rfl, rfl⟩

theorem foreign_nextLine : Foreign '\u0085' := ⟨rfl, rfl, rfl⟩

/-- Blanks before a word are gaps up to the first character that is foreign to the parser: the word, or a
U+0085 that the line began with. -/
theorem exists_foreign {w : Text} (hw : ∀ c ∈ w, isBlank c = true) (z : Text) :
    ∃ b c u, w ++ 'r' :: z = b ++ c :: u ∧ (∀ d ∈ b, isGap d = true) ∧ Foreign c ∧ c ≠ '\x7d' := by
  induction w with
  | nil => exact ⟨[], 'r', z, rfl, by simp, foreign_return, by decide⟩
  | cons d w ih =>
    obtain ⟨hd, hw⟩ := List.forall_mem_cons.1 hw
    rcases isGap_of_isBlank hd with hgap | rfl
    · obtain ⟨b, c, u, he, hb, hc⟩ := ih hw
      exact ⟨d :: b, c, u, by rw [List.cons_append, he]; rfl, List.forall_mem_cons.2 ⟨hgap, hb⟩, hc⟩
    · exact ⟨[], _, w ++ 'r' :: z, rfl, by simp, foreign_nextLine, by decide⟩

theorem stubHead_eq (name : Text) : stubHead name =
    "async".toList ++ ' ' :: ("function".toList ++ ' ' :: (name ++ ['(', ')', ' ', '\x7b'])) := by
  have hassoc (s t m n : Text) : s ++ ' ' :: (t ++ [' ']) ++ m ++ n = s ++ ' ' :: (t ++ ' ' :: (m ++ n)) := by
    simp
  exact hassoc "async".toList "function".toList name "() \x7b".toList

/-- Whatever stands behind a stub, the text begins as one. -/
theorem stubText_isHead (name id endpoint after : Text) {indent : Text} (singleLine : Bool)
    (hindent : ∀ c ∈ indent, isBlank c = true) :
    StubHead name (stubText name id endpoint indent singleLine ++ after) := by
  obtain ⟨w, z, htext, hw⟩ := exists_stubText name id endpoint singleLine hindent
  obtain ⟨b, c, u, hrest, hb, hc, hclose⟩ := exists_foreign hw (z ++ after)
  refine ⟨b, c, u, ?_, hb, hc, hclose⟩
  have hassoc (s t : Text) :
      s ++ ' ' :: (t ++ ' ' :: (name ++ ['(', ')', ' ', '\x7b'])) ++ (w ++ 'r' :: z) ++ after =
        s ++ ' ' :: (t ++ ' ' :: (name ++ '(' :: ')' :: ' ' :: '\x7b' :: (w ++ 'r' :: (z ++ after)))) := by
    simp
  rw [htext, stubHead_eq, ← hrest]
  exact hassoc _ _

theorem isBlank_of_mem_indent {source : Text} {f : Tree} {c : Char} (h : c ∈ f.indent source) :
    isBlank c = true :=
  List.mem_takeWhile_imp h

/-! ### Rewritten files -/

namespace Pass

/-- A marked function has a string at the start of its body. -/
theorem prologue_ne_nil_of_isMarked {directive : Text} {f : Tree} (h : isMarked directive f = true) :
    prologue f.functionBody ≠ [] := by
  simp only [isMarked, Bool.and_eq_true, Bool.not_eq_true', List.isEmpty_eq_false_iff] at h
  intro hnil
  rw [inPrologue, hnil] at h
  exact h.2 rfl

/-- At the place of a marked function no text is read that begins with the stub of the function. -/
theorem marked_ne_stub {directive endpoint path source rest : Text} {tree f : Tree} {v : Face}
    (hparse : Js.parse source = some tree) (hf : f ∈ topmost directive tree)
    (hface : Face.of? source f = some v) :
    source ≠ Text.slice 0 f.start source ++ v.stub path endpoint ++ rest := by
  intro hsource
  obtain ⟨hholds, hmarked⟩ := holds_of_outermost hf
  obtain ⟨name, hname, rfl⟩ := Option.map_eq_some_iff.1 hface
  have hfits := ((topmost_fits directive hparse).2 f hf).1
  have hsize : (Text.slice 0 f.start source).size = f.start :=
    size_slice (cuts_zero source) hfits.1 (Nat.zero_le _)
  have hstub : StubHead name
      (Face.stub path endpoint ⟨name, !f.text.contains '\n', f.indent source⟩ ++ rest) :=
    stubText_isHead _ _ _ _ _ fun c hc => isBlank_of_mem_indent hc
  rw [List.append_assoc] at hsource
  exact prologue_ne_nil_of_isMarked hmarked
    ((Js.parse_sane hparse f hholds).noStub name _ _ hname hsource hsize hstub)

/-- A file that is rewritten changes. -/
theorem process_changes {p q : Pass} {a : Artifact} {new : Text} (h : p.process a = (q, .ok (some new))) :
    new ≠ a.source := by
  obtain ⟨tree, faces, hparse, hfaces, hnew⟩ := process_weaves h
  obtain ⟨tree', xs, hparse', htake, hsome⟩ := exists_of_process h
  obtain rfl : tree' = tree := Option.some.inj (hparse'.symm.trans hparse)
  intro hsame
  rw [Option.getD_some, hsame] at hnew
  cases htop : topmost p.config.directive tree' with
  | nil =>
    rw [htop] at htake
    cases htake
    cases hsome
  | cons f fs =>
    cases faces with
    | nil => simp [htop] at hfaces
    | cons v vs =>
      rw [htop, List.map_cons, List.map_cons, List.cons.injEq] at hfaces
      rw [htop] at hnew
      exact marked_ne_stub hparse (htop ▸ List.mem_cons_self) hfaces.1 hnew

end Pass
end ServerSplit
