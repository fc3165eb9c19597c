import ServerSplit.Dispatcher
import ServerSplit.Proofs.Json.Values

/-! Calls over the wire. A request that a stub writes is read as the same request, so a dispatcher answers
its bytes as it answers the call, and arguments that are too deep to be read are never taken for others. -/
namespace ServerSplit

open Text (bytes)
open Json

namespace Json

theorem allExact_iff {vs : List Json} : AllExact vs ↔ ∀ v ∈ vs, v.IsExact := by
  induction vs with
  | nil => simp [AllExact]
  | cons v vs ih => simp [AllExact, ih]

theorem lt_depthOf_iff {vs : List Json} {n : Nat} : n < depthOf vs ↔ ∃ v ∈ vs, n < v.depth := by
  induction vs with
  | nil => simp [depthOf]
  | cons v vs ih => simp [depthOf, ih]

end Json

namespace Request

/-- The bytes of a request as a stub sends it. -/
def body (id : Text) (args : List Json) : List UInt8 := bytes (Request.text ⟨id, args⟩)

theorem text_eq (id : Text) (args : List Json) :
    Request.text ⟨id, args⟩ = '\x7b' :: '"' :: ("id".toList ++ ['"']) ++
      (':' :: '"' :: (id.flatMap escaped ++ ['"'])) ++ (',' :: '"' :: ("args".toList ++ ['"'])) ++
      (':' :: '[' :: itemsText args) ++ ['\x7d'] := by
  change '\x7b' :: '"' :: ("id".toList ++ ['"', ':']) ++ quoted id ++
    ',' :: '"' :: ("args".toList ++ ['"', ':']) ++ Json.text (.array args) ++ ['\x7d'] = _
  rw [text_array, quoted]
  simp only [List.append_assoc, List.cons_append, List.nil_append]

theorem readId_quoted (id : Text) : Decodes readId ('"' :: (id.flatMap escaped ++ ['"'])) id := by
  intro rest i
  obtain ⟨j, hj⟩ := readString_quoted id rest (i + 1)
  refine ⟨j, ?_⟩
  rw [readId, Cursor.next_char _ _ _ (by decide), ok_bind]
  change readString (Cursor.skip _ 1) = _
  rw [Cursor.skip_char _ _ _ (by decide), hj]

theorem readArgs_itemsText {args : List Json} (h : AllExact args) {d : Nat} (hd : 1 < d) (rest : List UInt8)
    (i : Nat) :
    Reaches (d - 1 ≤ depthOf args) (readArgs d ⟨bytes ('[' :: itemsText args) ++ rest, i⟩) args rest := by
  rw [readArgs, Cursor.next_char _ _ _ (by decide), ok_bind]
  simp only [if_true, if_neg (Nat.not_le.2 hd)]
  rw [Cursor.skip_char _ _ _ (by decide)]
  have hfuel : (itemsText args).length ≤ fuelAt ⟨bytes ('[' :: itemsText args) ++ rest, i⟩ :=
    length_le_fuelAt ⟨Text.charBytes '[', rest, rfl⟩ i
  refine Reaches.congr (p := d - 1 ≤ depthOf args ∨ False) ?_ (by rw [or_false])
  refine (readItems_itemsText h hfuel (by omega) rest (i + 1)).bind fun j => ?_
  rw [endList_mark]
  exact .ok _

theorem three_le_fuelAt (c : Char) (t : Text) (rest : List UInt8) (i : Nat) :
    3 ≤ fuelAt ⟨bytes (c :: t) ++ rest, i⟩ := by
  have := List.length_pos_iff.2 (Text.charBytes_ne_nil c)
  rw [fuelAt, Text.bytes_cons]
  simp only [List.length_append]
  omega

/-- The members of a request in the order in which they are written. -/
theorem readFields_text {args : List Json} (h : AllExact args) (id : Text) (rest : List UInt8) {n : Nat}
    (hn : 3 ≤ n) (i : Nat) :
    Reaches (126 ≤ depthOf args)
      (readFields n true {} ⟨bytes ('"' :: ("id".toList ++ ['"'])) ++
        (bytes (':' :: '"' :: (id.flatMap escaped ++ ['"'])) ++
          (bytes (',' :: '"' :: ("args".toList ++ ['"'])) ++
            (bytes (':' :: '[' :: itemsText args) ++ (bytes ['\x7d'] ++ rest)))), i⟩)
      ⟨some id, some args⟩ (bytes ['\x7d'] ++ rest) := by
  obtain ⟨n, rfl⟩ := Nat.exists_eq_add_of_le' hn
  have hid : Decodes readString ("id".toList ++ ['"']) "id".toList := readString_quoted "id".toList
  have hargs : Decodes readString ("args".toList ++ ['"']) "args".toList := readString_quoted "args".toList
  obtain ⟨j₁, hj₁⟩ := hid (bytes (':' :: '"' :: (id.flatMap escaped ++ ['"'])) ++
    (bytes (',' :: '"' :: ("args".toList ++ ['"'])) ++
      (bytes (':' :: '[' :: itemsText args) ++ (bytes ['\x7d'] ++ rest)))) (i + 1)
  obtain ⟨j₂, hj₂⟩ := readId_quoted id (bytes (',' :: '"' :: ("args".toList ++ ['"'])) ++
      (bytes (':' :: '[' :: itemsText args) ++ (bytes ['\x7d'] ++ rest))) (j₁ + 1)
  obtain ⟨j₃, hj₃⟩ := hargs (bytes (':' :: '[' :: itemsText args) ++ (bytes ['\x7d'] ++ rest)) (j₂ + 2)
  rw [readFields, nextKey_first, ok_bind]
  simp only [if_true, hj₁, ok_bind, Option.isSome_none, Bool.false_eq_true, if_false, readColon_mark, hj₂]
  rw [readFields, nextKey_comma, ok_bind]
  simp only [if_true, hj₃, ok_bind, if_neg (show "args".toList ≠ "id".toList by decide), Option.isSome_none,
    Bool.false_eq_true, if_false, readColon_mark]
  refine Reaches.congr (p := depthLimit - 1 - 1 ≤ depthOf args ∨ False) ?_ (by rw [or_false]; rfl)
  refine (readArgs_itemsText h (by decide) _ _).bind fun j => ?_
  rw [readFields, nextKey_end]
  exact .ok j

/-- A whole request is read, if its arguments are not too deep. -/
theorem ofBytes_body {args : List Json} (h : AllExact args) (id : Text) :
    (¬ 126 ≤ depthOf args → ofBytes (body id args) = .ok ⟨id, args⟩) ∧
      (126 ≤ depthOf args → ∃ j, ofBytes (body id args) = .error ⟨.tooDeep, j⟩) := by
  have hbody : body id args = bytes ('\x7b' :: '"' :: ("id".toList ++ ['"'])) ++
      (bytes (':' :: '"' :: (id.flatMap escaped ++ ['"'])) ++
        (bytes (',' :: '"' :: ("args".toList ++ ['"'])) ++
          (bytes (':' :: '[' :: itemsText args) ++ (bytes ['\x7d'] ++ [])))) := by
    rw [body, text_eq]
    simp only [Text.bytes_append, List.append_assoc, List.append_nil]
  rw [ofBytes, Cursor.ofBytes, hbody, Cursor.next_char _ _ _ (by decide), ok_bind]
  simp only [if_neg (show '\x7b' ≠ '[' by decide), if_true,
    Cursor.skip_char _ _ _ (show '\x7b'.toNat < 0x80 by decide), ofObject]
  obtain ⟨hok, hdeep⟩ := readFields_text h id [] (three_le_fuelAt _ _ _ _) (0 + 1)
  refine ⟨fun hshallow => ?_, fun h => ?_⟩
  · obtain ⟨j, hj⟩ := hok hshallow
    rw [hj]
    simp only [ok_bind, endObject_mark]
    rfl
  · obtain ⟨j, hj⟩ := hdeep h
    exact ⟨j, by rw [hj]; rfl⟩

/-- Where the arguments hold no doubles, and none of them is more than 125 brackets deep, the bytes of a
request are read as that request, so a dispatcher answers them as it answers the call; where some argument is
deeper, the request is malformed. -/
theorem ofBytes_roundtrip (id : Text) {args : List Json} (h : ∀ v ∈ args, v.IsExact) :
    ((∀ v ∈ args, v.depth ≤ 125) →
      ofBytes (body id args) = .ok ⟨id, args⟩ ∧
        ∀ d : Dispatcher, d.handle (body id args) = d.invoke id args) ∧
    ((∃ v ∈ args, 125 < v.depth) →
      ∃ fault, ofBytes (body id args) = .error fault ∧
        ∀ d : Dispatcher, d.handle (body id args) = .error (.malformed (body id args) fault)) := by
  obtain ⟨hok, hdeep⟩ := ofBytes_body (allExact_iff.2 h) id
  refine ⟨fun hshallow => ?_, fun hsome => ?_⟩
  · have hread := hok fun hlt => by
      obtain ⟨v, hv, hlt⟩ := lt_depthOf_iff.1 (Nat.lt_of_succ_le hlt)
      exact absurd (hshallow v hv) (Nat.not_le.2 hlt)
    exact ⟨hread, fun d => by rw [Dispatcher.handle, hread]⟩
  · obtain ⟨j, hread⟩ := hdeep (lt_depthOf_iff.2 hsome)
    exact ⟨_, hread, fun d => by rw [Dispatcher.handle, hread]⟩

/-- Lists in each other. -/
private def nested : Nat → Json
  | 0 => .null
  | n + 1 => .array [nested n]

private theorem nested_depth (n : Nat) : (nested n).IsExact ∧ (nested n).depth = n := by
  induction n with
  | zero => exact ⟨trivial, rfl⟩
  | succ n ih => exact ⟨⟨ih.1, trivial⟩, by simp [nested, Json.depth, depthOf, ih.2, Nat.add_comm]⟩

private def sample : List Json :=
  [.number (.whole (-9223372036854775808)), .string "\"\\\n\u00e9".toList,
    .object [(['a'], .array [.null, .bool true]), (['b'], .object [])]]

/-- Arguments of several kinds, and a list that is one bracket too deep. -/
theorem ofBytes_roundtrip_sample :
    ofBytes (body "\x01\"".toList sample) = .ok ⟨"\x01\"".toList, sample⟩ ∧
      ∃ fault, ofBytes (body ['f'] [nested 126]) = .error fault := by
  have hsample : ∀ v ∈ sample, v.IsExact ∧ v.depth ≤ 125 := by
    simp [sample, IsExact, AllExact, MembersExact, Json.depth, depthOf, depthIn]
    decide
  obtain ⟨hread, _⟩ := (ofBytes_roundtrip "\x01\"".toList fun v hv => (hsample v hv).1).1
    fun v hv => (hsample v hv).2
  obtain ⟨hexact, hdepth⟩ := nested_depth 126
  obtain ⟨fault, hfault, _⟩ := (ofBytes_roundtrip ['f'] (List.forall_mem_singleton.2 hexact)).2
    ⟨nested 126, by simp, by omega⟩
  exact ⟨hread, fault, hfault⟩

end Request

end ServerSplit
