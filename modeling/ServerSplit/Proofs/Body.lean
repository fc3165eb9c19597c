import ServerSplit.Dispatcher
import ServerSplit.Proofs.Json.Skipping

/-! Which bodies are requests. A value of JSON is one if it is an object with one identifier and at most one list of
arguments among its members, or a list of the two; the body of any other value, and a body with more than the
value, is malformed. -/
namespace ServerSplit

open Text (bytes charBytes)
open Json

/-! ### The request that a value is -/

namespace Json

def string? : Json → Option Text
  | .string t => some t
  | _ => none

def items? : Json → Option (List Json)
  | .array vs => some vs
  | _ => none

def members? : Json → Option (List (Text × Json))
  | .object ms => some ms
  | _ => none

theorem eq_string_of_some {v : Json} {s : Text} (h : v.string? = some s) : v = .string s := by
  cases v <;> simp_all [string?]

theorem eq_array_of_some {v : Json} {vs : List Json} (h : v.items? = some vs) : v = .array vs := by
  cases v <;> simp_all [items?]

/-- The values of a key, in the order in which they are written. -/
def valuesOf (key : Text) (ms : List (Text × Json)) : List Json := (ms.filter (·.1 = key)).map (·.2)

theorem valuesOf_cons_self (key : Text) (v : Json) (ms : List (Text × Json)) :
    valuesOf key ((key, v) :: ms) = v :: valuesOf key ms := by
  simp [valuesOf]

theorem valuesOf_cons_of_ne {key other : Text} (h : other ≠ key) (v : Json) (ms : List (Text × Json)) :
    valuesOf key ((other, v) :: ms) = valuesOf key ms := by
  simp [valuesOf, h]

/-- The kind of a value is told by the first character that is written for it. -/
theorem Writes.first {t : Text} {v : Json} (h : Writes t v) : ∃ c u, t = c :: u ∧ Solid c ∧
    (c = '"' ↔ v.string?.isSome) ∧ (c = '[' ↔ v.items?.isSome) ∧ (c = '\x7b' ↔ v.members?.isSome) := by
  cases h with
  | null => exact ⟨'n', _, rfl, by decide, by decide, by decide, by decide⟩
  | bool b => cases b <;> exact ⟨_, _, rfl, by decide, by decide, by decide, by decide⟩
  | string _ => exact ⟨'"', _, rfl, by decide, by simp [string?], by simp [items?], by simp [members?]⟩
  | array _ => exact ⟨'[', _, rfl, by decide, by simp [string?], by simp [items?], by simp [members?]⟩
  | object _ => exact ⟨'\x7b', _, rfl, by decide, by simp [string?], by simp [items?], by simp [members?]⟩
  | @whole n _ _ =>
    rw [toList_toString, Number.text]
    obtain ⟨d, ds, hds, hdigits, -⟩ := exists_ofNat n.natAbs
    have hd : d.isDigit = true := hdigits d (by simp)
    have hne {c : Char} := ne_of_isDigit (c := c) hd
    split
    · exact ⟨'-', _, rfl, by decide, by simp [string?], by simp [items?], by simp [members?]⟩
    · exact ⟨d, ds, hds, solid_of_isDigit hd, by simp [string?, hne (c := '"') (by decide)],
        by simp [items?, hne (c := '[') (by decide)], by simp [members?, hne (c := '\x7b') (by decide)]⟩

theorem Writes.of_string {t s : Text} (h : Writes t (.string s)) : ∃ u, t = '"' :: u ∧ Quotes u s := by
  cases h with
  | string hs => exact ⟨_, rfl, hs⟩

theorem Writes.of_array {t : Text} {vs : List Json} (h : Writes t (.array vs)) :
    ∃ u, t = '[' :: u ∧ WritesItems true u vs := by
  cases h with
  | array hvs => exact ⟨_, rfl, hvs⟩

theorem Writes.of_object {t : Text} {ms : List (Text × Json)} (h : Writes t (.object ms)) :
    ∃ u, t = '\x7b' :: u ∧ WritesMembers true u ms := by
  cases h with
  | object hms => exact ⟨_, rfl, hms⟩

end Json

namespace Request

/-- The request that a value is, if it is one. -/
def ofJson? : Json → Option Request
  | .array [.string id] => some ⟨id, []⟩
  | .array [.string id, .array args] => some ⟨id, mergedAll args⟩
  | .object ms =>
    match valuesOf "id".toList ms, valuesOf "args".toList ms with
    | [.string id], [] => some ⟨id, []⟩
    | [.string id], [.array args] => some ⟨id, mergedAll args⟩
    | _, _ => none
  | _ => none

/-! ### What a reader comes to -/

/-- A reader takes the value that there is and leaves the given bytes, or fails where there is none. -/
def Gives {α : Type} (o : Option α) (r : Except Fault (α × Cursor)) (rest : List UInt8) : Prop :=
  match o with
  | some x => ∃ j, r = .ok (x, ⟨rest, j⟩)
  | none => ∃ f, r = .error f

namespace Gives

variable {α β : Type} {o : Option α} {f : α → Option β} {r : Except Fault (α × Cursor)} {rest rest' : List UInt8}

/-- Readers one behind another. -/
theorem bind (h : Gives o r rest) {k : α × Cursor → Except Fault (β × Cursor)}
    (hk : ∀ x j, o = some x → Gives (f x) (k (x, ⟨rest, j⟩)) rest') : Gives (o.bind f) (r >>= k) rest' := by
  cases o with
  | none =>
    obtain ⟨e, rfl⟩ := h
    exact ⟨e, rfl⟩
  | some x =>
    obtain ⟨j, rfl⟩ := h
    exact hk x j rfl

end Gives

theorem failType_error {α : Type} (b : Char) (expected : Text) (c : Cursor) :
    ∃ f, failType b expected c = (.error f : Except Fault α) := by
  unfold failType
  split
  · exact ⟨_, rfl⟩
  · split
    · exact ⟨_, rfl⟩
    · cases readAtom b c <;> exact ⟨_, rfl⟩

theorem failBehind_error {α : Type} (ending : Cursor → Except Fault Cursor) (cause : Cause) (c : Cursor) :
    ∃ f, failBehind ending cause c = (.error f : Except Fault α) := by
  unfold failBehind
  split <;> exact ⟨_, rfl⟩

theorem failInObject_error {α : Type} (cause : Cause) (c : Cursor) :
    ∃ f, failInObject cause c = (.error f : Except Fault α) := by
  unfold failInObject
  split <;> exact ⟨_, rfl⟩

variable {g t : Text} {v : Json}

/-- An identifier is read from a string, and from nothing else. -/
theorem readId_writes (h : Writes t v) (hg : Blanks g) (rest : List UInt8) (i : Nat) :
    Gives v.string? (readId ⟨bytes g ++ (bytes t ++ rest), i⟩) rest := by
  cases hv : v.string? with
  | some s =>
    obtain rfl := eq_string_of_some hv
    obtain ⟨u, rfl, hs⟩ := h.of_string
    obtain ⟨j, hj⟩ := readString_quotes hs rest (i + g.length + 1)
    refine ⟨j, ?_⟩
    rw [readId, Cursor.next_blanks _ _ _ hg (by decide), ok_bind]
    simp only [if_true, Cursor.skip_char _ _ _ (show '"'.toNat < 0x80 by decide), hj]
  | none =>
    obtain ⟨c, u, rfl, hsolid, hstring, -⟩ := h.first
    have hc : c ≠ '"' := by simpa [hv] using hstring
    rw [readId, Cursor.next_blanks _ _ _ hg hsolid, ok_bind]
    simp only [if_neg hc]
    exact failType_error _ _ _

/-- Arguments are read from a list, and from nothing else. -/
theorem readArgs_writes (h : Writes t v) (hdepth : v.depth ≤ 126) (hg : Blanks g) (rest : List UInt8) (i : Nat) :
    Gives (v.items?.map mergedAll) (readArgs (depthLimit - 1) ⟨bytes g ++ (bytes t ++ rest), i⟩) rest := by
  cases hv : v.items? with
  | some vs =>
    obtain rfl := eq_array_of_some hv
    obtain ⟨u, rfl, hvs⟩ := h.of_array
    have hfuel : u.length ≤ fuelAt ⟨bytes ('[' :: u) ++ rest, i + g.length⟩ :=
      length_le_fuelAt ⟨charBytes '[', rest, rfl⟩ _
    have hdeep : ¬ depthLimit - 1 - 1 ≤ depthOf vs := by
      rw [depth] at hdepth
      change ¬ 126 ≤ _
      omega
    obtain ⟨j, hj⟩ := (readItems_writes hvs hfuel (by decide) rest (i + g.length + 1)).1 hdeep
    refine ⟨j + 1, ?_⟩
    rw [readArgs, Cursor.next_blanks _ _ _ hg (by decide), ok_bind]
    simp only [if_true, if_neg (show ¬ depthLimit - 1 ≤ 1 by decide),
      Cursor.skip_char _ _ _ (show '['.toNat < 0x80 by decide), hj, ok_bind, endList_mark]
    rfl
  | none =>
    obtain ⟨c, u, rfl, hsolid, -, hitems, -⟩ := h.first
    have hc : c ≠ '[' := by simpa [hv] using hitems
    rw [readArgs, Cursor.next_blanks _ _ _ hg hsolid, ok_bind]
    simp only [if_neg hc]
    exact failType_error _ _ _

/-! ### Objects -/

/-- What has been read of a request and one more member, where it may stand. -/
def Partial.with? (r : Partial) (m : Text × Json) : Option Partial :=
  if m.1 = "id".toList then
    if r.id.isSome then none else m.2.string?.map fun id => { r with id := some id }
  else if m.1 = "args".toList then
    if r.args.isSome then none else (m.2.items?.map mergedAll).map fun args => { r with args := some args }
  else some r

/-- The members of a request are read in any order, each of them once. -/
theorem readFields_writes {first : Bool} {t : Text} {ms : List (Text × Json)} (h : WritesMembers first t ms)
    (hdepth : depthIn ms ≤ 126) {n : Nat} (hn : t.length ≤ n) (r : Partial) (rest : List UInt8) (i : Nat) :
    Gives (ms.foldlM Partial.with? r) (readFields n first r ⟨bytes t ++ rest, i⟩) (bytes ['\x7d'] ++ rest) := by
  obtain ⟨n, rfl⟩ := Nat.exists_eq_succ_of_ne_zero (n := n) (by have := h.length_pos; omega)
  cases h with
  | close hg =>
    rw [Text.bytes_append, List.append_assoc, readFields, nextKey_close _ _ _ _ hg]
    exact ⟨_, rfl⟩
  | @member _ l k g g' t u key v ms hl hk hg hg' h hs =>
    have hlength : u.length ≤ n := (WritesMembers.lengths hs hn).2
    have hdepths : v.depth ≤ 126 ∧ depthIn ms ≤ 126 := by simpa [depthIn] using hdepth
    obtain ⟨j, m, hj, hm⟩ := nextKey_writes hl hk g (':' :: (g' ++ (t ++ u))) rest i
    rw [readFields, hj, ok_bind, List.foldlM_cons]
    simp only [if_true, hm, ok_bind, readColon_blanks _ _ _ hg]
    simp only [Text.bytes_append, List.append_assoc]
    by_cases hid : key = "id".toList
    · simp only [Partial.with?, if_pos hid]
      by_cases hsome : r.id.isSome = true
      · rw [if_pos hsome, if_pos hsome]
        exact failInObject_error _ _
      · rw [if_neg hsome, if_neg hsome]
        rw [Option.bind_eq_bind, Option.bind_map]
        exact (readId_writes h hg' _ _).bind fun id p _ => readFields_writes hs hdepths.2 hlength _ rest p
    · by_cases hargs : key = "args".toList
      · simp only [Partial.with?, if_neg hid, if_pos hargs]
        by_cases hsome : r.args.isSome = true
        · rw [if_pos hsome, if_pos hsome]
          exact failInObject_error _ _
        · rw [if_neg hsome, if_neg hsome, Option.bind_eq_bind, Option.bind_map]
          exact (readArgs_writes h hdepths.1 hg' _ _).bind fun args p _ =>
            readFields_writes hs hdepths.2 hlength _ rest p
      · have hfuel : t.length ≤ fuelAt ⟨bytes g' ++ (bytes t ++ (bytes u ++ rest)), m + g.length + 1⟩ :=
          length_le_fuelAt ⟨bytes g', bytes u ++ rest, by simp⟩ _
        obtain ⟨p, hp⟩ := skipValue_writes h hfuel hg' (hs.settles rest) (m + g.length + 1)
        simp only [Partial.with?, if_neg hid, if_neg hargs, hp, ok_bind]
        exact readFields_writes hs hdepths.2 hlength r rest p

/-- What is read of a field that stands once at most, from what has been read of it and the values to come. -/
def once {α : Type} (f : Json → Option α) : Option α → List Json → Option (Option α)
  | o, [] => some o
  | some _, _ :: _ => none
  | none, v :: vs => (f v).bind fun x => once f (some x) vs

/-- The fields are read apart from each other. -/
theorem foldlM_with? (ms : List (Text × Json)) (r : Partial) :
    ms.foldlM Partial.with? r = (once string? r.id (valuesOf "id".toList ms)).bind fun id =>
      (once (fun v => v.items?.map mergedAll) r.args (valuesOf "args".toList ms)).map fun args => ⟨id, args⟩ := by
  have hkeys : "id".toList ≠ "args".toList := by decide
  induction ms generalizing r with
  | nil => rfl
  | cons m ms ih =>
    obtain ⟨key, v⟩ := m
    rw [List.foldlM_cons, Option.bind_eq_bind, Partial.with?]
    by_cases hid : key = "id".toList
    · subst hid
      rw [valuesOf_cons_self, valuesOf_cons_of_ne hkeys, if_pos rfl]
      cases hr : r.id with
      | some id => simp [once]
      | none =>
        rw [if_neg (by simp), Option.bind_map, once]
        cases v.string? with
        | none => rfl
        | some id => simp [ih]
    · rw [valuesOf_cons_of_ne hid, if_neg hid]
      by_cases hargs : key = "args".toList
      · subst hargs
        rw [valuesOf_cons_self, if_pos rfl]
        cases hr : r.args with
        | some args => simp [once]
        | none =>
          rw [if_neg (by simp), Option.bind_map, once]
          cases v.items? with
          | none => simp
          | some vs => simp [ih]
      · rw [valuesOf_cons_of_ne hargs, if_neg hargs]
        exact ih r

theorem ofJson?_object (ms : List (Text × Json)) : ofJson? (.object ms) =
    (ms.foldlM Partial.with? {}).bind fun r => r.id.map fun id => ⟨id, r.args.getD []⟩ := by
  rw [foldlM_with?, ofJson?]
  generalize valuesOf "id".toList ms = ids
  generalize valuesOf "args".toList ms = argss
  rcases ids with _ | ⟨v, _ | ⟨w, ids⟩⟩
  · simp [once, Option.bind_map]
  · cases v with
    | string id =>
      rcases argss with _ | ⟨v, _ | ⟨w, argss⟩⟩
      · rfl
      · cases v <;> rfl
      · cases v <;> rfl
    | _ => rfl
  · cases v <;> rfl

theorem ofObject_writes {t : Text} {ms : List (Text × Json)} (h : WritesMembers true t ms) (hdepth : depthIn ms ≤ 126)
    (rest : List UInt8) (i : Nat) : Gives (ofJson? (.object ms)) (ofObject ⟨bytes t ++ rest, i⟩) rest := by
  rw [ofJson?_object, ofObject]
  refine (readFields_writes h hdepth (length_le_fuelAt ⟨[], rest, rfl⟩ i) {} rest i).bind fun r j _ => ?_
  cases hid : r.id with
  | none =>
    simp only [hid]
    exact failInObject_error _ _
  | some id =>
    refine ⟨j + 1, ?_⟩
    simp only [hid, endObject_mark]
    rfl

/-! ### Lists -/

theorem ofJson?_singleton (v : Json) : ofJson? (.array [v]) = v.string?.bind fun id => some ⟨id, []⟩ := by
  cases v <;> rfl

theorem ofJson?_cons_cons (v w : Json) (vs : List Json) : ofJson? (.array (v :: w :: vs)) =
    v.string?.bind fun id => (w.items?.map mergedAll).bind fun args =>
      if vs.isEmpty then some ⟨id, args⟩ else none := by
  cases v with
  | string id =>
    cases w with
    | array args => cases vs <;> rfl
    | _ => rfl
  | _ => rfl

theorem ofList_writes {t : Text} {vs : List Json} (h : WritesItems true t vs) (hdepth : depthOf vs ≤ 126)
    (rest : List UInt8) (i : Nat) : Gives (ofJson? (.array vs)) (ofList ⟨bytes t ++ rest, i⟩) rest := by
  cases h with
  | close hg =>
    rw [Text.bytes_append, List.append_assoc, ofList, nextItem_close _ _ _ _ hg]
    simp only [ok_bind, Bool.not_false, if_true]
    exact failBehind_error _ _ _
  | @item _ l t u v vs hl h hs =>
    have hid := readId_writes h .nil (bytes u ++ rest) (i + l.length)
    rw [ofList, nextItem_writes hl h, ok_bind]
    cases hs with
    | @close _ g hg =>
      rw [ofJson?_singleton]
      refine hid.bind fun id j _ => ⟨j + g.length + 1, ?_⟩
      simp only [Text.bytes_append, List.append_assoc]
      rw [nextItem_close _ _ _ _ hg, ok_bind]
      simp only [Bool.not_false, if_true, endList_mark]
      rfl
    | @item _ l t u w ws hl h hs =>
      have hdepth : w.depth ≤ 126 := by
        simp only [depthOf] at hdepth
        omega
      rw [ofJson?_cons_cons]
      refine hid.bind fun id j _ => ?_
      simp only [nextItem_writes hl h, ok_bind, Bool.not_true, Bool.false_eq_true, if_false]
      refine (readArgs_writes h hdepth .nil (bytes u ++ rest) _).bind fun args j _ => ?_
      cases hs with
      | @close _ g hg =>
        refine ⟨j + g.length + 1, ?_⟩
        simp only [Text.bytes_append, List.append_assoc, endList_close _ _ _ hg]
        rfl
      | @item _ l t u _ _ hl _ _ =>
        obtain ⟨f, hf⟩ := endList_item (bytes (t ++ u) ++ rest) j hl
        refine ⟨f, ?_⟩
        rw [Text.bytes_append, List.append_assoc, hf]
        rfl

/-! ### Bodies -/

/-- The value is read first, and then nothing but blanks may follow. -/
theorem ofBytes_writes (hg : Blanks g) (h : Writes t v) (hdepth : v.depth ≤ 127) (rest : List UInt8) :
    ∃ r, Gives (ofJson? v) r rest ∧
      ofBytes (bytes (g ++ t) ++ rest) = r >>= fun p => endText p.2 >>= fun _ => .ok p.1 := by
  rw [Text.bytes_append, List.append_assoc, ofBytes, Cursor.ofBytes]
  cases v with
  | array vs =>
    obtain ⟨u, rfl, hvs⟩ := h.of_array
    have hdepths : depthOf vs ≤ 126 := by
      rw [depth] at hdepth
      omega
    refine ⟨_, ofList_writes hvs hdepths rest (0 + g.length + 1), ?_⟩
    rw [Cursor.next_blanks _ _ _ hg (by decide), ok_bind]
    simp only [if_true, Cursor.skip_char _ _ _ (show '['.toNat < 0x80 by decide)]
    rfl
  | object ms =>
    obtain ⟨u, rfl, hms⟩ := h.of_object
    have hdepths : depthIn ms ≤ 126 := by
      rw [depth] at hdepth
      omega
    refine ⟨_, ofObject_writes hms hdepths rest (0 + g.length + 1), ?_⟩
    rw [Cursor.next_blanks _ _ _ hg (by decide), ok_bind]
    simp only [if_neg (show '\x7b' ≠ '[' by decide), if_true,
      Cursor.skip_char _ _ _ (show '\x7b'.toNat < 0x80 by decide)]
    rfl
  | _ =>
    obtain ⟨c, u, rfl, hsolid, -, hitems, hmembers⟩ := h.first
    have hc : c ≠ '[' ∧ c ≠ '\x7b' := by simpa [items?, members?] using And.intro hitems hmembers
    refine ⟨_, failType_error c name ⟨bytes (c :: u) ++ rest, 0 + g.length⟩, ?_⟩
    rw [Cursor.next_blanks _ _ _ hg hsolid, ok_bind]
    simp only [if_neg hc.1, if_neg hc.2]
    rfl

/-- A body that is a value of JSON between blanks is read as the request that the value is. The body of any
other value is malformed, and so is one with more than blanks behind its value. -/
theorem ofBytes_grammar (hg : Blanks g) (h : Writes t v) (hdepth : v.depth ≤ 127) (rest : List UInt8) :
    let body := bytes (g ++ t) ++ rest
    (∀ r, ofBytes body = .ok r ↔ ofJson? v = some r ∧ ∃ w, Blanks w ∧ rest = bytes w) ∧
    (ofJson? v = none ∨ (¬ ∃ w, Blanks w ∧ rest = bytes w) →
      ∃ fault, ofBytes body = .error fault ∧ ∀ d : Dispatcher, d.handle body = .error (.malformed body fault)) := by
  intro body
  have hread : ∀ r, ofBytes body = .ok r ↔ ofJson? v = some r ∧ ∃ w, Blanks w ∧ rest = bytes w := by
    intro r
    obtain ⟨p, hp, hbody⟩ := ofBytes_writes hg h hdepth rest
    change ofBytes (bytes (g ++ t) ++ rest) = .ok r ↔ _
    rw [hbody]
    cases ho : ofJson? v with
    | none =>
      rw [ho] at hp
      obtain ⟨f, rfl⟩ := hp
      simp [bind, Except.bind]
    | some r' =>
      rw [ho] at hp
      obtain ⟨j, rfl⟩ := hp
      rw [ok_bind, ← endText_eq_ok_iff rest j]
      cases endText ⟨rest, j⟩ with
      | ok _ => simp
      | error f => simp [bind, Except.bind]
  refine ⟨hread, fun hnone => ?_⟩
  cases hbody : ofBytes body with
  | ok r =>
    obtain ⟨hr, hw⟩ := (hread r).1 hbody
    rcases hnone with hnone | hnone
    · rw [hr] at hnone
      cases hnone
    · exact (hnone hw).elim
  | error fault => exact ⟨fault, rfl, fun d => by rw [Dispatcher.handle, hbody]⟩

private def sampleText : Text :=
  "\x7b \"\\u0069d\" :\n\"\\u00E9\", \"n\":[\x7b\x7d],\t\"args\":[\x7b\"b\":-1,\"a\":null , \"b\":2\x7d]\x7d".toList

private def sampleValue : Json :=
  .object [("id".toList, .string ['é']), (['n'], .array [.object []]),
    ("args".toList, .array [.object [(['b'], .number (.whole (-1))), (['a'], .null), (['b'], .number (.whole 2))]])]

private theorem writes_sample : Writes sampleText sampleValue := by
  have hzero : HexDigit '0' 0 := .lower (n := 0) (by decide)
  have hnine : HexDigit '9' 9 := .lower (n := 9) (by decide)
  have hid : Quotes "\\u0069d\"".toList "id".toList :=
    .char (.escape (.code (.four hzero hzero (.lower (n := 6) (by decide)) hnine) (by decide))) (quotes_escaped ['d'])
  have hvalue : Quotes "\\u00E9\"".toList ['é'] :=
    .char (.escape (.code (.four hzero hzero (.upper (n := 14) (by decide)) hnine) (by decide))) .close
  have hblank : Blanks [' '] := by decide
  have hline : Blanks ['\n'] := by decide
  have htab : Blanks ['\t'] := by decide
  have hone := Writes.whole (n := -1) (by decide) (by decide)
  have htwo := Writes.whole (n := 2) (by decide) (by decide)
  obtain ⟨t, ht, heq⟩ : ∃ t, Writes t sampleValue ∧ t = sampleText := by
    refine ⟨_, .object (.member (.first hblank) hid hblank hline (.string hvalue)
      (.member (.next .nil hblank) (quotes_escaped ['n']) .nil .nil
        (.array (.item (.first .nil) (.object (.close .nil)) (.close .nil)))
        (.member (.next .nil htab) (quotes_escaped "args".toList) .nil .nil
          (.array (.item (.first .nil)
            (.object (.member (.first .nil) (quotes_escaped ['b']) .nil .nil hone
              (.member (.next .nil .nil) (quotes_escaped ['a']) .nil .nil .null
                (.member (.next hblank hblank) (quotes_escaped ['b']) .nil .nil htwo (.close .nil)))))
            (.close .nil)))
          (.close .nil)))), ?_⟩
    decide +kernel
  exact heq ▸ ht

private theorem ofJson?_sample :
    ofJson? sampleValue = some ⟨['é'], [.object [(['a'], .null), (['b'], .number (.whole 2))]]⟩ := by
  change some (Request.mk ['é'] (mergedAll [.object _])) = _
  simp only [mergedAll, merged, ← insertAll_nil]
  rfl

/-- The request of the sample, and what its body is with one more bracket. -/
theorem ofBytes_grammar_sample :
    Blanks [' '] ∧ Writes sampleText sampleValue ∧ sampleValue.depth ≤ 127 ∧
      ofBytes (bytes ([' '] ++ sampleText) ++ bytes ['\n']) =
        .ok ⟨['é'], [.object [(['a'], .null), (['b'], .number (.whole 2))]]⟩ ∧
      ∃ fault, ofBytes (bytes ([' '] ++ sampleText) ++ bytes [']']) = .error fault := by
  have hblank : Blanks [' '] := by decide
  have hdepth : sampleValue.depth ≤ 127 := by decide
  have hmore : ¬ ∃ w, Blanks w ∧ bytes [']'] = bytes w := by
    rw [exists_blanks_iff]
    decide
  refine ⟨hblank, writes_sample, hdepth, ?_, ?_⟩
  · exact ((ofBytes_grammar hblank writes_sample hdepth _).1 _).2 ⟨ofJson?_sample, ['\n'], by decide, rfl⟩
  · obtain ⟨fault, hfault, _⟩ := (ofBytes_grammar hblank writes_sample hdepth (bytes [']'])).2 (.inr hmore)
    exact ⟨fault, hfault⟩

end Request

end ServerSplit
