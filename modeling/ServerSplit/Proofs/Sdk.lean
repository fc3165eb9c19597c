import ServerSplit.Proofs.Json.Values
import ServerSplit.Proofs.Registry
import ServerSplit.Proofs.Text.Split
import ServerSplit.Sdk

/-! What the generated module says of the registry. Its text is made of the first records alone, in the order
of their identifiers, and each of them has a line of its own that can be read again. -/
namespace ServerSplit

open Text (bytes)

namespace Sdk

/-- The line of a record. -/
def line (x : Record) : Text := "    [".toList ++ Json.quoted x.id ++ ", ".toList ++ x.sourceText ++ "],".toList

/-- What stands before the entries, up to the last line break. -/
def opening (factory : Text) (format : ModuleFormat) : Text :=
  "// Generated by serverfn. Do not edit.\n".toList ++
    (match format with
      | .esm => "export ".toList
      | .commonjs => []) ++
    "function ".toList ++ factory ++ "() \x7b\n  const availableMethods = new Map([".toList

/-- What stands behind the entries. -/
def closing (factory : Text) (format : ModuleFormat) : Text :=
  dispatch ++
    (match format with
      | .esm => []
      | .commonjs => "\nmodule.exports = \x7b ".toList ++ factory ++ " \x7d;\n".toList)

private theorem entry_eq (x : Record) : entry x = line x ++ ['\n'] := by
  unfold line
  rw [List.append_assoc]
  rfl

theorem render_eq (factory : Text) (format : ModuleFormat) (r : Registry) :
    render factory format r =
      opening factory format ++ '\n' :: (r.records.flatMap (fun x => line x ++ ['\n']) ++
        closing factory format) := by
  have hentries : entries r = r.records.flatMap (fun x => line x ++ ['\n']) :=
    List.flatMap_congr fun x _ => entry_eq x
  have hopen : "() \x7b\n  const availableMethods = new Map([\n".toList =
      "() \x7b\n  const availableMethods = new Map([".toList ++ ['\n'] := rfl
  unfold render opening closing
  rw [hopen, hentries]
  have hassoc (a b e d m : Text) : a ++ (b ++ ['\n']) ++ e ++ d ++ m = a ++ b ++ '\n' :: (e ++ (d ++ m)) := by
    simp
  exact hassoc _ _ _ _ _

theorem line_injective {x y : Record} (h : line x = line y) : x.id = y.id ∧ x.sourceText = y.sourceText := by
  have h := List.append_cancel_right h
  rw [List.append_assoc, List.append_assoc, List.append_assoc, List.append_assoc] at h
  obtain ⟨hid, hrest⟩ := Json.quoted_append_inj (List.append_cancel_left h)
  exact ⟨hid, List.append_cancel_left hrest⟩

private theorem map_pair_of_map_line {xs ys : List Record} (h : xs.map line = ys.map line) :
    xs.map (fun x => (x.id, x.sourceText)) = ys.map fun x => (x.id, x.sourceText) := by
  induction xs generalizing ys with
  | nil => rw [List.map_eq_nil_iff.1 h.symm]
  | cons x xs ih =>
    obtain ⟨y, ys, rfl, hline, hlines⟩ := List.map_eq_cons_iff.1 h.symm
    obtain ⟨hid, htext⟩ := line_injective hline
    rw [List.map_cons, List.map_cons, ih hlines.symm, hid, htext]

/-- Whether no function of a registry has a line break in its text. -/
def OneLined (r : Registry) : Prop := ∀ x ∈ r.records, '\n' ∉ x.sourceText

/-- The lines of a module are those of the registry, between others that do not turn on it. -/
theorem splitOn_render (factory : Text) (format : ModuleFormat) {r : Registry} (h : OneLined r) :
    Text.splitOn '\n' (render factory format r) =
      Text.splitOn '\n' (opening factory format) ++ (r.records.map line ++
        Text.splitOn '\n' (closing factory format)) := by
  have hline : ∀ x ∈ r.records, '\n' ∉ line x := by
    intro x hx
    unfold line
    exact List.not_mem_append (List.not_mem_append (List.not_mem_append (List.not_mem_append (by decide)
      (Json.not_mem_quoted (by decide) x.id)) (by decide)) (h x hx)) (by decide)
  rw [render_eq, Text.splitOn_append, Text.splitOn_flatMap hline]

/-- The module carries the registry. It turns on the first record with each identifier alone, whatever the
order of the registrations. Where no function has a line break in its text, equal modules are of the same
identifiers and functions; the records are whole lines, in the order of the bytes of their identifiers,
between lines that do not turn on the registry; and the key of each is a string of JSON that is read as the
identifier. -/
theorem render_carries (factory : Text) (format : ModuleFormat) :
    (∀ xs ys : List Record, (∀ id, xs.find? (·.id = id) = ys.find? (·.id = id)) →
      render factory format (Registry.empty.addAll xs) = render factory format (Registry.empty.addAll ys)) ∧
    (∀ r s : Registry, OneLined r → OneLined s → render factory format r = render factory format s →
      r.records.map (fun x => (x.id, x.sourceText)) = s.records.map fun x => (x.id, x.sourceText)) ∧
    ∃ before after : List Text, ∀ r : Registry, OneLined r →
      Text.splitOn '\n' (render factory format r) = before ++ (r.records.map line ++ after) ∧
      (r.records.map fun x => bytes x.id).Pairwise (· < ·) ∧
      ∀ x ∈ r.records, Json.ofBytes (bytes (Json.quoted x.id)) = .ok (.string x.id) := by
  refine ⟨fun xs ys h => ?_, fun r s hr hs h => ?_, _, _, fun r hr =>
    ⟨splitOn_render factory format hr, ?_, fun x _ => ?_⟩⟩
  · have hsame : Registry.empty.addAll xs = Registry.empty.addAll ys :=
      Registry.ext_get? fun id => by rw [Registry.get?_addAll, Registry.get?_addAll, h]
    rw [hsame]
  · have hlines : r.records.map line = s.records.map line := by
      have := congrArg (Text.splitOn '\n') h
      rw [splitOn_render factory format hr, splitOn_render factory format hs] at this
      exact List.append_cancel_right (List.append_cancel_left this)
    exact map_pair_of_map_line hlines
  · exact List.pairwise_map.2 (r.ordered.imp Text.bytes_lt_bytes)
  · exact Json.ofBytes_text (v := .string x.id) trivial (show 0 < Json.depthLimit by decide)

private def get : Record := ⟨"a__f".toList, ['f'], "function f() \x7b\x7d".toList, ['a'], 1⟩

private def put : Record := ⟨"a__\"".toList, ['g'], "function g() \x7b\x7d".toList, ['a'], 2⟩

/-- Two functions that are registered in either order, one of them twice. -/
theorem render_carries_pair :
    render ['s'] .esm (Registry.empty.addAll [get, put, get]) =
      render ['s'] .esm (Registry.empty.addAll [put, get]) ∧
    Json.ofBytes (bytes (Json.quoted put.id)) = .ok (.string put.id) := by
  obtain ⟨hsame, _, before, after, hlines⟩ := render_carries ['s'] .esm
  have hne : get.id ≠ put.id := by decide
  refine ⟨hsame _ _ fun id => ?_, (hlines (Registry.empty.addAll [put, get]) ?_).2.2 put ?_⟩
  · by_cases hget : get.id = id
    · simp [hget, show put.id ≠ id from fun hput => hne (hget.trans hput.symm)]
    · by_cases hput : put.id = id <;> simp [hget, hput]
  · unfold OneLined
    decide +kernel
  · decide +kernel

end Sdk

end ServerSplit
