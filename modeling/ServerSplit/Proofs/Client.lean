import ServerSplit.Proofs.Splice
import ServerSplit.Proofs.TakeOut

/-! What of a source reaches the client: all that is outside its outermost marked functions, and of each of
these no more than its stub shows. -/
namespace ServerSplit

open Js (Tree)
open Js.Tree
open Directive (topmost)

/-- What a stub shows of the function it stands for. -/
structure Face where
  name : Text
  singleLine : Bool
  indent : Text
  deriving Repr, DecidableEq

namespace Face

def of? (source : Text) (f : Tree) : Option Face :=
  f.functionName?.map fun name => ⟨name, !f.text.contains '\n', f.indent source⟩

def stub (path endpoint : Text) (v : Face) : Text :=
  stubText v.name (functionId path v.name) endpoint v.indent v.singleLine

/-- A function that is taken out has a face, and the edit of the function puts the stub of its face in
its place. -/
theorem exists_of_ofFunction (endpoint : Text) {path source : Text} {f : Tree} {x : Extracted}
    (h : Extracted.ofFunction? path source f = some x) :
    ∃ v, of? source f = some v ∧ Pass.edit endpoint x = ⟨f.start, f.stop, v.stub path endpoint⟩ := by
  obtain ⟨name, hname, rfl⟩ := Option.map_eq_some_iff.1 h
  exact ⟨_, by rw [of?, hname]; rfl, rfl⟩

private theorem exists_of_forall₂ (endpoint : Text) {path source : Text} {fs : List Tree}
    {xs : List Extracted}
    (h : List.Forall₂ (fun f x => Extracted.ofFunction? path source f = some x) fs xs) :
    ∃ faces : List Face, fs.map (of? source) = faces.map some ∧
      (xs.map (Pass.edit endpoint)).map Edit.range = fs.map span ∧
      (xs.map (Pass.edit endpoint)).map Edit.replacement = faces.map (stub path endpoint) := by
  induction h with
  | nil => exact ⟨[], rfl, rfl, rfl⟩
  | cons hx _ ih =>
    obtain ⟨v, hv, he⟩ := exists_of_ofFunction endpoint hx
    obtain ⟨faces, hf, hr, hs⟩ := ih
    refine ⟨v :: faces, ?_, ?_, ?_⟩
    · simp [hv, hf]
    · simp only [List.map_cons, hr, he]
      rfl
    · simp only [List.map_cons, hs, he]

end Face

namespace Pass

/-- What of a source reaches the client: the pieces outside its outermost marked functions, and the faces
of these. -/
structure ClientView where
  pieces : List Text
  faces : List (Option Face)
  deriving DecidableEq

def clientView (directive source : Text) (tree : Tree) : ClientView :=
  ⟨Text.outside source 0 ((topmost directive tree).map span),
    (topmost directive tree).map (Face.of? source)⟩

/-- The outermost marked functions of a source fit in it, one behind another. -/
theorem topmost_fits {source : Text} {tree : Tree} (directive : Text)
    (h : Js.parse source = some tree) :
    Text.Apart 0 ((topmost directive tree).map span) ∧
      ∀ f ∈ topmost directive tree,
        Text.Fits source f.span ∧ Text.slice f.start f.stop source = f.text := by
  obtain ⟨ts, b, rfl, hplaced, hsource⟩ := Js.parse_placed h
  refine ⟨hplaced.outermostOf_apart, fun f hf => ?_⟩
  obtain ⟨t, ht, hf, _⟩ := holds_of_outermostOf hf
  obtain ⟨a, c, he, ha, hstop⟩ := Js.exists_append_of_holds hplaced hsource ht hf
  refine ⟨⟨⟨a, _, he, ha⟩, ⟨a ++ f.text, c, by rw [he, List.append_assoc], ?_⟩⟩, ?_⟩
  · rw [Text.size_append, ha, hstop]; rfl
  · rw [← hstop, ← ha, he, Text.slice_append]

theorem process_weaves {p q : Pass} {a : Artifact} {r : Option Text}
    (h : p.process a = (q, .ok r)) :
    ∃ (tree : Tree) (faces : List Face), Js.parse a.source = some tree ∧
      (topmost p.config.directive tree).map (Face.of? a.source) = faces.map some ∧
      r.getD a.source =
        Text.weave (Text.outside a.source 0 ((topmost p.config.directive tree).map span))
          (faces.map (Face.stub a.path p.config.endpoint)) := by
  obtain ⟨tree, xs, hparse, htake, rfl⟩ := exists_of_process h
  obtain ⟨hapart, hfits⟩ := topmost_fits p.config.directive hparse
  obtain ⟨faces, hfaces, hranges, hstubs⟩ :=
    Face.exists_of_forall₂ p.config.endpoint (forall₂_of_takeEach htake)
  refine ⟨tree, faces, hparse, hfaces, ?_⟩
  have hall : Edit.applyAll a.source (xs.map (edit p.config.endpoint)) =
      Text.weave (Text.outside a.source 0 ((topmost p.config.directive tree).map span))
        (faces.map (Face.stub a.path p.config.endpoint)) := by
    rw [Edit.applyAll_eq_weave (List.Perm.refl _), hranges, hstubs]
    · rwa [hranges]
    · intro e he
      have : e.range ∈ (topmost p.config.directive tree).map span := hranges ▸ List.mem_map_of_mem he
      obtain ⟨f, hf, hspan⟩ := List.mem_map.1 this
      exact hspan ▸ (hfits f hf).1
  rw [← hall]
  split
  · rename_i hnil
    subst hnil
    simp [Edit.applyAll]
  · rfl

/-- The new text of a file is the pieces of the old one outside its outermost marked functions, as they are
and in order, with one stub in place of each function, made of the name of the function, the path of the
file, the endpoint and the layout of the function alone. So sources that differ only inside such functions
are rewritten to the same text. -/
theorem process_shows_faces {p q : Pass} {a : Artifact} {r : Option Text}
    (h : p.process a = (q, .ok r)) :
    ∃ (tree : Tree) (faces : List Face), Js.parse a.source = some tree ∧
      (topmost p.config.directive tree).map (Face.of? a.source) = faces.map some ∧
      Text.Apart 0 ((topmost p.config.directive tree).map span) ∧
      a.source =
        Text.weave (Text.outside a.source 0 ((topmost p.config.directive tree).map span))
          ((topmost p.config.directive tree).map Tree.text) ∧
      r.getD a.source =
        Text.weave (Text.outside a.source 0 ((topmost p.config.directive tree).map span))
          (faces.map (Face.stub a.path p.config.endpoint)) ∧
      ∀ (p' q' : Pass) (b : Artifact) (r' : Option Text) (tree' : Tree), p'.process b = (q', .ok r') →
        p'.config = p.config → b.path = a.path → Js.parse b.source = some tree' →
        clientView p.config.directive b.source tree' = clientView p.config.directive a.source tree →
        r'.getD b.source = r.getD a.source := by
  obtain ⟨tree, faces, hparse, hfaces, hr⟩ := process_weaves h
  obtain ⟨hapart, hfits⟩ := topmost_fits p.config.directive hparse
  refine ⟨tree, faces, hparse, hfaces, hapart, ?_, hr, ?_⟩
  · have hinside : (topmost p.config.directive tree).map Tree.text =
        Text.inside a.source ((topmost p.config.directive tree).map span) := by
      rw [Text.inside, List.map_map]
      exact List.map_congr_left fun f hf => (hfits f hf).2.symm
    rw [hinside, Text.weave_outside (Text.cuts_zero _) hapart, Text.slice_all]
    exact List.forall_mem_map.2 fun f hf => (hfits f hf).1
  · intro p' q' b r' tree' h' hconfig hpath hparse' hview
    obtain ⟨tree'', faces', hparse'', hfaces', hr'⟩ := process_weaves h'
    obtain rfl : tree'' = tree' := Option.some.inj (hparse''.symm.trans hparse')
    rw [hconfig] at hfaces' hr'
    simp only [clientView, ClientView.mk.injEq] at hview
    obtain ⟨hpieces, hsame⟩ := hview
    have heq : faces' = faces := by
      refine List.map_injective_iff.2 (Option.some_injective Face) ?_
      rw [← hfaces', hsame, hfaces]
    rw [hr', hr, hpieces, heq, hpath]

private def openFile : Artifact := ⟨"a.js".toList, "function f()\x7b'd'\x7d".toList⟩

private def secretFile : Artifact := ⟨"a.js".toList, "function f(x)\x7b'd'\x7d".toList⟩

/-- Two files that differ inside a marked function. -/
theorem process_shows_faces_of_secrets :
    ∃ (q q' : Pass) (r r' : Option Text),
      ({ config := { directive := ['d'] } } : Pass).process openFile = (q, .ok r) ∧
      ({ config := { directive := ['d'] } } : Pass).process secretFile = (q', .ok r') ∧
      r'.getD secretFile.source = r.getD openFile.source := by
  obtain ⟨q, r, h⟩ := exists_ok_of_isOk (p := { config := { directive := ['d'] } }) (a := openFile)
    (by decide +kernel)
  obtain ⟨q', r', h'⟩ := exists_ok_of_isOk (p := { config := { directive := ['d'] } }) (a := secretFile)
    (by decide +kernel)
  obtain ⟨tree, faces, hparse, _, _, _, _, htwo⟩ := process_shows_faces h
  obtain ⟨tree', _, hparse', _⟩ := exists_of_process h'
  have hview : (Js.parse openFile.source).map (clientView ['d'] openFile.source) =
      some ⟨[[], []], [some ⟨['f'], true, []⟩]⟩ := by decide +kernel
  have hview' : (Js.parse secretFile.source).map (clientView ['d'] secretFile.source) =
      some ⟨[[], []], [some ⟨['f'], true, []⟩]⟩ := by decide +kernel
  rw [hparse, ← hview', hparse'] at hview
  exact ⟨q, q', r, r', h, h', htwo _ _ _ _ _ h' rfl rfl hparse' (Option.some.inj hview).symm⟩

end Pass
end ServerSplit
