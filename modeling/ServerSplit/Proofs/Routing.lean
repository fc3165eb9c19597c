import ServerSplit.Proofs.Run
import ServerSplit.Proofs.Slug

/-! Stubs and records agree. Every stub asks for a record of the registry, and where that record is of
another function than the stub's own, a report says so. -/
namespace ServerSplit.Pass

/-- The report of a function whose identifier is taken, from its record. -/
private theorem collision_record (path : Text) (x : Extracted) (kept : Record) :
    collision (x.record path, kept) = dropped path x kept := rfl

private theorem mem_records {c : Config} {as : List Artifact} {r : Record} :
    r ∈ records c as ↔ ∃ a ∈ as, ∃ x ∈ takes c a, x.record a.path = r := by
  simp [records]

private theorem records_length (c : Config) (as : List Artifact) :
    (records c as).length = (as.flatMap (takes c)).length := by
  simp [records, List.length_flatMap]

/-- What a pass has written and what it has registered belong together. Every stub asks for an identifier
that is registered, under the name of its function and from a file with the slug of its own; every record
is asked for by a stub of its own function. The record that a stub asks for is that of its own function,
or the function is reported with the one that was kept, and there are as many such reports as stubs
beyond the records. -/
theorem runPass_routes {c : Config} {as : List Artifact} {out : Output} (h : runPass c as = .ok out) :
    out.artifacts = as.map (rewrite c) ∧
      (∀ a ∈ as, ∀ x ∈ takes c a, ∃ kept, out.registry.get? x.id = some kept ∧ kept.name = x.name ∧
        slug kept.artifact = slug a.path ∧
        (kept = x.record a.path ∨ dropped a.path x kept ∈ out.diagnostics)) ∧
      (∀ r ∈ out.registry.records, ∃ a ∈ as, ∃ x ∈ takes c a, x.id = r.id ∧ r = x.record a.path) ∧
      (duplicates out.diagnostics).length + out.registry.size =
        (as.flatMap (takes c)).length := by
  obtain ⟨_, hartifacts, _, _, hregistry, hduplicates, _⟩ := runPass_yields h
  have hfound (id : Text) : out.registry.get? id = (records c as).find? (·.id = id) := by
    rw [hregistry, Registry.get?_addAll, Registry.get?_empty, Option.none_or]
  refine ⟨hartifacts, fun a ha x hx => ?_, fun r hr => ?_, ?_⟩
  · have hmem : x.record a.path ∈ records c as := mem_records.2 ⟨a, ha, x, hx, rfl⟩
    obtain ⟨kept, hget, hkept⟩ := Registry.get?_or_clash (r := .empty) hmem
    rw [← hregistry] at hget
    have hid : kept.id = x.id := (Registry.mem_of_get? hget).2
    obtain ⟨b, hb, y, hy, rfl⟩ := mem_records.1 (List.mem_of_find?_eq_some (hfound x.id ▸ hget))
    have hsame : functionId b.path y.name = functionId a.path x.name := by
      rw [← id_of_mem_takes hy, ← id_of_mem_takes hx]
      exact hid
    obtain ⟨hslug, hname⟩ := eq_of_functionId_eq hsame
    refine ⟨_, hget, hname, hslug, hkept.imp_right fun hclash => ?_⟩
    have : dropped a.path x (y.record b.path) ∈ duplicates out.diagnostics := by
      rw [hduplicates, ← collision_record]
      exact List.mem_map_of_mem hclash
    exact List.mem_of_mem_filter this
  · have hget := Registry.get?_of_mem hr
    rw [hfound] at hget
    obtain ⟨a, ha, x, hx, hrecord⟩ := mem_records.1 (List.mem_of_find?_eq_some hget)
    exact ⟨a, ha, x, hx, congrArg Record.id hrecord, hrecord.symm⟩
  · have := Registry.length_clashes .empty (records c as)
    rw [hduplicates, List.length_map, hregistry, ← records_length]
    simpa using this

/-- Two files whose functions have one identifier. -/
theorem runPass_routes_clash :
    ∃ out, runPass { directive := ['d'] }
        [⟨"a.js".toList, "function f()\x7b'd'\x7d".toList⟩,
          ⟨"a..js".toList, "function f()\x7b'd'\x7d".toList⟩] = .ok out ∧
      (duplicates out.diagnostics).length + out.registry.size = 2 := by
  obtain ⟨out, h⟩ := runPass_lenient (c := { directive := ['d'] }) rfl (by decide +kernel : ∀ a ∈
    [(⟨"a.js".toList, "function f()\x7b'd'\x7d".toList⟩ : Artifact),
      ⟨"a..js".toList, "function f()\x7b'd'\x7d".toList⟩], _)
  refine ⟨out, h, ?_⟩
  rw [(runPass_routes h).2.2.2]
  decide +kernel

end ServerSplit.Pass
