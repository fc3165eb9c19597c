import ServerSplit.Js.Parse
import ServerSplit.Proofs.Js.Reading
import ServerSplit.Proofs.Js.Recast

/-! A reading loses nothing. At every step the tokens read so far, the blanks behind them and the rest
make up the source, and every token stands where its text is found. -/
namespace ServerSplit.Js

namespace Reader

/-- All trees built so far, those of the outermost node first. -/
def trees (s : Reader) : List Tree := (s.items ++ s.outer.flatten).reverse

/-- What the reader holds is the source `whole`. -/
structure Covers (whole : Text) (s : Reader) : Prop where
  text : spell (Tree.tokensOf s.trees) ++ s.blank ++ s.rest = whole
  offset : s.offset = (spell (Tree.tokensOf s.trees)).size + s.blank.size
  row : InRow 0 (Tree.tokensOf s.trees)

theorem ofText_covers (t : Text) : (ofText t).Covers t :=
  ⟨rfl, rfl, trivial⟩

/-- Only the tokens of the trees matter, not how the trees are put together. -/
theorem Covers.of_tokens {whole : Text} {s s' : Reader} (h : s.Covers whole)
    (ht : Tree.tokensOf s'.trees = Tree.tokensOf s.trees) (hb : s'.blank = s.blank)
    (hr : s'.rest = s.rest) (ho : s'.offset = s.offset) : s'.Covers whole where
  text := by rw [ht, hb, hr]; exact h.text
  offset := by rw [ht, hb, ho]; exact h.offset
  row := by rw [ht]; exact h.row

/-- The boundary between the blanks and the rest may move. -/
theorem Covers.of_blank {whole : Text} {s s' : Reader} (h : s.Covers whole) (ht : s'.trees = s.trees)
    (hb : s'.blank ++ s'.rest = s.blank ++ s.rest)
    (ho : s'.offset + s.blank.size = s.offset + s'.blank.size) : s'.Covers whole where
  text := by rw [ht, List.append_assoc, hb, ← List.append_assoc]; exact h.text
  offset := by
    have := h.offset
    rw [ht]
    omega
  row := by rw [ht]; exact h.row

theorem push_trees (s : Reader) (k : Leaf) (w r : Text) :
    (s.push k w r).trees = s.trees ++ [.leaf ⟨k, s.blank, w, s.offset⟩] := by
  simp [trees, push]

theorem Covers.push {whole : Text} {s : Reader} (h : s.Covers whole) {k : Leaf} {w r : Text}
    (hw : w ≠ []) (hr : s.rest = w ++ r) : (s.push k w r).Covers whole where
  text := by
    rw [push_trees, Tree.tokensOf_append, spell_append, ← h.text, hr]
    simp [Tree.tokens, Reader.push]
  offset := by
    rw [push_trees, Tree.tokensOf_append, spell_append, Text.size_append]
    have := h.offset
    simp [Tree.tokens, Reader.push]
    omega
  row := by
    rw [push_trees, Tree.tokensOf_append, inRow_append]
    exact ⟨h.row, by simpa [Tree.tokens, InRow] using ⟨h.offset, hw⟩⟩

theorem Covers.skipBlanks {whole : Text} {s : Reader} (h : s.Covers whole) :
    s.skipBlanks.Covers whole := by
  refine h.of_blank rfl ?_ ?_
  · simp [Reader.skipBlanks]
  · simp only [Reader.skipBlanks, Text.size_append]
    omega

theorem comment?_takes {g : Gap} {s : Reader} {k : Leaf} {w r : Text}
    (h : comment? g s = some (k, w, r)) : w ≠ [] ∧ s.rest = w ++ r := by
  unfold comment? at h
  split at h
  · rename_i p hp
    cases h
    exact Comment.takes_read hp
  · split at h
    · obtain ⟨p, hp, he⟩ := Option.map_eq_some_iff.1 h
      cases he
      exact Comment.takes_readMarkup hp
    · cases h

theorem Covers.comment {whole : Text} {g : Gap} {s s' : Reader} (h : s.Covers whole)
    (hs : s.comment g = some s') : s'.Covers whole := by
  unfold Reader.comment at hs
  split at hs
  · cases hs
  · obtain ⟨⟨k, w, r⟩, hc, rfl⟩ := Option.map_eq_some_iff.1 hs
    obtain ⟨hw, hr⟩ := comment?_takes hc
    exact h.skipBlanks.push hw hr

theorem Covers.settle {whole : Text} {g : Gap} {s s' : Reader} (h : s.Covers whole)
    (hs : s.settle g = some s') : s'.Covers whole := by
  unfold Reader.settle at hs
  split at hs
  · cases hs; exact h
  · exact go h hs
where
  go {n : Text} {s : Reader} (h : s.Covers whole) (hs : Reader.settle.go g n s = some s') :
      s'.Covers whole := by
    induction n generalizing s with
    | nil => cases hs
    | cons _ n ih =>
      simp only [Reader.settle.go] at hs
      split at hs
      · cases hs
      · split at hs
        · rename_i hc
          obtain ⟨hw, hr⟩ := comment?_takes hc
          exact ih (h.skipBlanks.push hw hr) hs
        · cases hs
          exact h.skipBlanks.of_tokens rfl rfl rfl rfl

theorem Covers.insertion {whole : Text} {operator : Bool} {s s' : Reader} (h : s.Covers whole)
    (hs : s.insertion operator = some s') : s'.Covers whole := by
  unfold Reader.insertion at hs
  split at hs
  · cases hs
  · exact go h hs
where
  go {n : Text} {s : Reader} (h : s.Covers whole) (hs : Reader.insertion.go operator n s = some s') :
      s'.Covers whole := by
    induction n generalizing s with
    | nil => cases hs
    | cons _ n ih =>
      simp only [Reader.insertion.go] at hs
      split at hs
      · cases hs
        exact h.of_tokens rfl rfl rfl rfl
      · obtain ⟨p, hp, hs⟩ := Option.bind_eq_some_iff.1 hs
        obtain ⟨hw, hr⟩ := Comment.takes_read hp
        exact ih (h.skipBlanks.push hw hr) hs

theorem Covers.take {whole : Text} {k : Leaf} {reads : Reads} {s s' : Reader} (h : s.Covers whole)
    (hk : Takes reads) (hs : s.take k reads = some s') : s'.Covers whole := by
  obtain ⟨p, hp, rfl⟩ := Option.map_eq_some_iff.1 hs
  obtain ⟨hw, hr⟩ := hk hp
  exact (h.push hw hr).of_tokens rfl rfl rfl rfl

private theorem splitOperator_append (t : Text) :
    (Semicolon.beforeQuestion.splitOperator t).1 ++ (Semicolon.beforeQuestion.splitOperator t).2 = t := by
  unfold Semicolon.beforeQuestion.splitOperator
  split <;> try rfl
  simp only [Option.orElse_eq_orElse, Option.orElse_eq_or]
  cases h : Text.after "instanceof".toList t with
  | some r => simpa using (Text.eq_append_of_after h).symm
  | none =>
    cases h' : Text.after "in".toList t with
    | some r => simpa using (Text.eq_append_of_after h').symm
    | none => simp

theorem beforeQuestion_append (t : Text) :
    (Semicolon.beforeQuestion t).1 ++ (Semicolon.beforeQuestion t).2 = t := by
  unfold Semicolon.beforeQuestion
  simp only
  split
  · rename_i r hr
    rw [List.append_assoc, List.singleton_append, ← hr, List.takeWhile_append_dropWhile]
  · rename_i c r hr
    split
    · simp only [List.append_assoc, List.cons_append, splitOperator_append,
        List.takeWhile_append_dropWhile]
      rw [← hr, List.takeWhile_append_dropWhile]
    · simp only
      rw [← hr, List.takeWhile_append_dropWhile]
  · rename_i hr
    have := List.takeWhile_append_dropWhile (p := fun c => isPlainBlank c && c != '\n') (l := t)
    rwa [hr] at this

/-- Before the mark of a choice the boundary between the blanks and the rest moves. -/
theorem exists_of_question {semicolon : Bool} {s s' : Reader} (hs : s.question semicolon = some s') :
    ∃ passed rest w r, passed ++ rest = s.blank ++ s.rest ∧ Lexeme.question rest = some (w, r) ∧
      s' = { ({ s with blank := passed, offset := s.offset - s.blank.size + passed.size } : Reader).push
        .mark w r with closed := false } := by
  unfold Reader.question at hs
  cases semicolon with
  | false =>
    obtain ⟨p, hp, rfl⟩ := Option.map_eq_some_iff.1 hs
    exact ⟨_, _, _, _, List.takeWhile_append_dropWhile, hp, rfl⟩
  | true =>
    obtain ⟨p, hp, rfl⟩ := Option.map_eq_some_iff.1 hs
    exact ⟨_, _, _, _, beforeQuestion_append _, hp, rfl⟩

theorem Covers.question {whole : Text} {semicolon : Bool} {s s' : Reader} (h : s.Covers whole)
    (hs : s.question semicolon = some s') : s'.Covers whole := by
  obtain ⟨passed, rest, w, r, happend, hp, rfl⟩ := exists_of_question hs
  obtain ⟨hw, hr⟩ := Lexeme.takes_question hp
  let moved := { s with
    blank := passed, rest := rest, offset := s.offset - s.blank.size + passed.size }
  have hmoved : moved.Covers whole := by
    refine h.of_blank rfl happend ?_
    have := h.offset
    simp only [moved]
    omega
  exact (hmoved.push hw hr).of_tokens rfl rfl rfl rfl

theorem splitLast_append {n : Nat} {ts us vs : List Tree} (h : splitLast n ts = some (us, vs)) :
    us ++ vs = ts := by
  induction ts generalizing n us with
  | nil =>
    cases n with
    | zero => cases h; rfl
    | succ n => cases h
  | cons t ts ih =>
    cases n with
    | zero => cases h; rfl
    | succ n =>
      obtain ⟨p, hp, he⟩ := Option.map_eq_some_iff.1 h
      cases he
      simp [ih hp]

/-- One tree is recast, and the others stay. -/
theorem exists_of_recastLast {r : Recast} {ts us : List Tree} (h : recastLast r ts = some us) :
    ∃ as t u bs, ts = as ++ t :: bs ∧ us = as ++ u :: bs ∧ r.apply t = some u := by
  induction ts generalizing us with
  | nil => cases h
  | cons t ts ih =>
    unfold recastLast at h
    split at h
    · obtain ⟨vs, hvs, rfl⟩ := Option.map_eq_some_iff.1 h
      obtain ⟨as, t', u, bs, rfl, rfl, hu⟩ := ih hvs
      exact ⟨t :: as, t', u, bs, rfl, rfl, hu⟩
    · obtain ⟨u, hu, rfl⟩ := Option.map_eq_some_iff.1 h
      exact ⟨[], t, u, ts, rfl, rfl, hu⟩

theorem recastLast_alike {r : Recast} {ts us : List Tree} (h : recastLast r ts = some us) :
    ∃ as t u bs, ts = as ++ t :: bs ∧ us = as ++ u :: bs ∧ Alike t u := by
  obtain ⟨as, t, u, bs, hts, hus, hu⟩ := exists_of_recastLast h
  exact ⟨as, t, u, bs, hts, hus, Recast.apply_alike hu⟩

end Reader

open Reader

theorem Step.covers {whole : Text} {a : Step} {s s' : Reader} (ha : a.ReadsHead)
    (h : s.Covers whole) (hs : a.run s = some s') : s'.Covers whole := by
  cases a with
  | token k reads =>
    obtain ⟨t, ht, hs⟩ := Option.bind_eq_some_iff.1 hs
    exact (h.settle ht).take ha hs
  | glued k reads =>
    simp only [Step.run] at hs
    split at hs
    · exact h.take ha hs
    · cases hs
  | comment g => exact h.comment hs
  | gap g => exact h.settle hs
  | question semicolon => exact h.question hs
  | insertion operator => exact h.insertion hs
  | closing operator =>
    simp only [Step.run, Option.orElse_eq_orElse, Option.orElse_eq_or, Option.or_eq_some_iff] at hs
    rcases hs with hs | ⟨_, hs⟩
    · exact h.insertion hs
    · cases hs
      exact h.of_tokens rfl rfl rfl rfl
  | opening =>
    cases hs
    exact h.of_tokens (by simp [trees]) rfl rfl rfl
  | adopt n =>
    obtain ⟨⟨us, vs⟩, hp, hs⟩ := Option.bind_eq_some_iff.1 hs
    cases hs
    refine h.of_tokens ?_ rfl rfl rfl
    simp only [trees, ← splitLast_append hp]
    simp
  | finish k =>
    simp only [Step.run] at hs
    split at hs
    · cases hs
    · rename_i ts us ho
      cases hs
      refine h.of_tokens ?_ rfl rfl rfl
      simp [trees, ho, Tree.tokens]
  | recast r =>
    obtain ⟨us, hus, rfl⟩ := Option.map_eq_some_iff.1 hs
    obtain ⟨as, t, u, bs, hts, rfl, hu⟩ := recastLast_alike hus
    refine h.of_tokens ?_ rfl rfl rfl
    simp [trees, hts, hu.tokens, Tree.tokensOf]
  | last p =>
    simp only [Step.run] at hs
    split at hs
    · cases hs; exact h
    · cases hs

/-- Whatever the grammar reads of a source is all there. -/
theorem run_covers {whole : Text} {n : Nat} {r : Rule Grammar.Part} {s s' : Reader}
    (hr : r.ReadsHeads) (h : s.Covers whole) (hs : r.run grammar n s = some s') : s'.Covers whole :=
  Rule.run_keeps (fun _ _ _ ha h hs => Step.covers ha h hs) (fun p => (Grammar.readsHeads p).each) hr.each h hs

/-- A source is what its tree is made of, and the blanks behind it. -/
theorem parse_spells {t : Text} {tree : Tree} (h : parse t = some tree) :
    (∃ b, t = spell tree.tokens ++ b) ∧ InRow 0 tree.tokens := by
  unfold parse at h
  split at h
  · rename_i s hs
    simp only [Bool.and_eq_true] at h
    split at h
    · rename_i hdone
      cases h
      obtain ⟨⟨hrest, houter⟩, _⟩ := hdone
      have hc := run_covers Grammar.program_readsHeads (ofText_covers t) hs
      have ht : s.trees = s.items.reverse := by
        simp [trees, List.isEmpty_iff.1 houter]
      rw [List.isEmpty_iff] at hrest
      refine ⟨⟨s.blank, ?_⟩, ?_⟩
      · rw [← hc.text, ht, hrest, List.append_nil]; rfl
      · have := hc.row
        rwa [ht] at this
    · cases h
  · cases h

end ServerSplit.Js
