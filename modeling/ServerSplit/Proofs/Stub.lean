import ServerSplit.Stub
import ServerSplit.Proofs.Json.Strings
import ServerSplit.Proofs.Text.Split

/-! The text of a stub. Its two layouts are the same parts with other gaps between them, and its two strings
are read as the endpoint and the identifier, whatever stands behind them. -/
namespace ServerSplit

namespace Text

/-- A text that neither begins nor ends with a blank. -/
def Trimmed (t : Text) : Prop := t.head?.all (!isBlank ·) = true ∧ t.getLast?.all (!isBlank ·) = true

instance (t : Text) : Decidable (Trimmed t) := inferInstanceAs (Decidable (_ ∧ _))

theorem dropWhile_of_head {t : Text} (h : t.head?.all (!isBlank ·) = true) : t.dropWhile isBlank = t := by
  cases t with
  | nil => rfl
  | cons c t => exact List.dropWhile_cons_of_neg (by simpa using h)

theorem trimStart_append {s t : Text} (hs : ∀ c ∈ s, isBlank c = true) (ht : Trimmed t) :
    trimStart (s ++ t) = t := by
  rw [trimStart, List.dropWhile_append_of_pos hs, dropWhile_of_head ht.1]

theorem trim_append {s t : Text} (hs : ∀ c ∈ s, isBlank c = true) (ht : Trimmed t) : trim (s ++ t) = t := by
  rw [trim, trimStart_append hs ht, trimEnd, dropWhile_of_head, List.reverse_reverse]
  rw [List.head?_reverse]
  exact ht.2

/-- The text with its lines one behind another: a blank in place of each line break and the blanks behind
it. -/
def unbroken (t : Text) : Text :=
  match splitOn '\n' t with
  | [] => []
  | l :: ls => joinWith [' '] (l :: ls.map trimStart)

theorem unbroken_joinWith {t : Text} {ts : List Text} (h : ∀ u ∈ t :: ts, '\n' ∉ u) :
    unbroken (joinWith ['\n'] (t :: ts)) = joinWith [' '] (t :: ts.map trimStart) := by
  rw [unbroken, splitOn_joinWith (List.cons_ne_nil t ts) h]

end Text

open Text

/-! ### Parts and gaps -/

/-- The first line of a stub. -/
def stubHead (name : Text) : Text := "async function ".toList ++ name ++ "() \x7b".toList

/-- The lines behind it, each with the number of blanks that it begins with. -/
def stubParts (id endpoint : Text) : List (Nat × Text) :=
  [(2, "return fetch(".toList ++ Json.quoted endpoint ++ ", \x7b".toList),
   (4, "method: \"POST\",".toList),
   (4, "headers: \x7b \"Content-Type\": \"application/json\" \x7d,".toList),
   (4, "body: JSON.stringify(\x7b id: ".toList ++ Json.quoted id ++ ", args: [...arguments] \x7d),".toList),
   (2, "\x7d).then((r) => r.json());".toList),
   (0, "\x7d".toList)]

/-- What stands before a line that begins with `n` blanks. -/
def stubGap (indent : Text) (singleLine : Bool) (n : Nat) : Text :=
  if singleLine then [' '] else '\n' :: (indent ++ List.replicate n ' ')

theorem stubLines_eq (name id endpoint : Text) :
    stubLines name id endpoint =
      stubHead name :: (stubParts id endpoint).map fun p => List.replicate p.1 ' ' ++ p.2 := (rfl)

/-- The ends of a text are those of the texts that it is made of. -/
theorem trimmed_append {s t : Text} (u : Text) (hs : s ≠ [] ∧ s.head?.all (!isBlank ·) = true)
    (ht : t ≠ [] ∧ t.getLast?.all (!isBlank ·) = true) :
    Trimmed (s ++ u ++ t) := by
  refine ⟨?_, ?_⟩
  · obtain ⟨c, s, rfl⟩ := List.exists_cons_of_ne_nil hs.1
    exact hs.2
  · rw [List.getLast?_append, List.getLast?_eq_some_getLast ht.1, Option.some_or]
    rw [List.getLast?_eq_some_getLast ht.1] at ht
    exact ht.2

theorem trimmed_stubHead (name : Text) : Trimmed (stubHead name) :=
  trimmed_append name (by decide) (by decide)

theorem trimmed_stubParts (id endpoint : Text) : ∀ p ∈ stubParts id endpoint, Trimmed p.2 := by
  simp only [stubParts, List.forall_mem_cons, List.not_mem_nil, false_imp_iff, implies_true, and_true]
  exact ⟨trimmed_append _ (by decide) (by decide), by decide, by decide,
    trimmed_append _ (by decide) (by decide), by decide, by decide⟩

theorem isBlank_of_mem_replicate {n : Nat} : ∀ c ∈ List.replicate n ' ', isBlank c = true :=
  fun c hc => by rw [List.eq_of_mem_replicate hc]; decide

theorem stubText_single (name id endpoint indent : Text) :
    stubText name id endpoint indent true =
      joinWith [' '] (stubHead name :: (stubParts id endpoint).map (·.2)) := by
  have hhead : trim (stubHead name) = stubHead name := trim_append (s := []) (by simp) (trimmed_stubHead name)
  have hparts : (stubParts id endpoint).map (fun p => trim (List.replicate p.1 ' ' ++ p.2)) =
      (stubParts id endpoint).map (·.2) :=
    List.map_congr_left fun p hp => trim_append isBlank_of_mem_replicate (trimmed_stubParts id endpoint p hp)
  simp only [stubText, if_true, stubLines_eq, List.map_cons, hhead, List.map_map, Function.comp_def, hparts]

theorem stubText_lines (name id endpoint indent : Text) :
    stubText name id endpoint indent false =
      joinWith ['\n'] (stubHead name ::
        (stubParts id endpoint).map fun p => indent ++ List.replicate p.1 ' ' ++ p.2) := by
  simp only [stubText, Bool.false_eq_true, if_false, stubLines_eq, List.take_succ_cons, List.take_zero,
    List.drop_succ_cons, List.drop_zero, List.map_map, Function.comp_def, List.singleton_append,
    List.append_assoc]

/-- In either layout a stub is its parts with gaps between them. -/
theorem stubText_eq (name id endpoint indent : Text) (singleLine : Bool) :
    stubText name id endpoint indent singleLine =
      stubHead name ++ (stubParts id endpoint).flatMap fun p => stubGap indent singleLine p.1 ++ p.2 := by
  cases singleLine with
  | true =>
    rw [stubText_single, joinWith_eq_flatMap, List.flatMap_map]
    rfl
  | false =>
    rw [stubText_lines, joinWith_eq_flatMap, List.flatMap_map]
    simp only [stubGap, Bool.false_eq_true, if_false, List.cons_append, List.nil_append]

/-- In either layout the first line of a stub is followed by blanks up to the `return` of the second. -/
theorem exists_stubText (name id endpoint : Text) {indent : Text} (singleLine : Bool)
    (hindent : ∀ c ∈ indent, isBlank c = true) :
    ∃ w z, stubText name id endpoint indent singleLine = stubHead name ++ (w ++ 'r' :: z) ∧
      ∀ c ∈ w, isBlank c = true := by
  obtain ⟨z, ps, hparts⟩ : ∃ z ps, stubParts id endpoint = (2, 'r' :: z) :: ps := ⟨_, _, rfl⟩
  refine ⟨stubGap indent singleLine 2, z ++ ps.flatMap fun p => stubGap indent singleLine p.1 ++ p.2, ?_, ?_⟩
  · rw [stubText_eq, hparts, List.flatMap_cons, List.append_assoc, List.cons_append]
  cases singleLine with
  | true => exact List.forall_mem_singleton.2 (by decide)
  | false =>
    exact List.forall_mem_cons.2 ⟨by decide, List.forall_mem_append.2 ⟨hindent, isBlank_of_mem_replicate⟩⟩

/-! ### Line breaks -/

theorem notMem_of_low {t : Text} (ht : t.all (0x20 ≤ ·.toNat) = true) {d : Char} (hd : d.toNat < 0x20) :
    d ∉ t :=
  fun h => Nat.not_le.2 hd (of_decide_eq_true (List.all_eq_true.1 ht d h))

theorem notMem_stubHead {name : Text} {d : Char} (hd : d.toNat < 0x20) (hname : d ∉ name) : d ∉ stubHead name := by
  have hbefore : d ∉ "async function ".toList := notMem_of_low (by decide) hd
  have hbehind : d ∉ "() \x7b".toList := notMem_of_low (by decide) hd
  change d ∉ "async function ".toList ++ name ++ "() \x7b".toList
  simp only [List.mem_append, not_or]
  exact ⟨⟨hbefore, hname⟩, hbehind⟩

theorem notMem_stubParts {d : Char} (hd : d.toNat < 0x20) (id endpoint : Text) :
    ∀ p ∈ stubParts id endpoint, d ∉ p.2 := by
  simp only [stubParts, List.forall_mem_cons, List.not_mem_nil, false_imp_iff, implies_true, and_true,
    List.mem_append, not_or]
  exact ⟨⟨⟨notMem_of_low (by decide) hd, Json.not_mem_quoted hd endpoint⟩, notMem_of_low (by decide) hd⟩,
    notMem_of_low (by decide) hd, notMem_of_low (by decide) hd,
    ⟨⟨notMem_of_low (by decide) hd, Json.not_mem_quoted hd id⟩, notMem_of_low (by decide) hd⟩,
    notMem_of_low (by decide) hd, notMem_of_low (by decide) hd⟩

theorem notMem_stubText_single {name : Text} {d : Char} (hd : d.toNat < 0x20) (hname : d ∉ name)
    (id endpoint indent : Text) : d ∉ stubText name id endpoint indent true := by
  rw [stubText_single]
  intro h
  rcases mem_joinWith h with h | ⟨t, ht, h⟩
  · exact notMem_of_low (by decide) hd h
  · rcases List.mem_cons.1 ht with rfl | ht
    · exact notMem_stubHead hd hname h
    · obtain ⟨p, hp, rfl⟩ := List.mem_map.1 ht
      exact notMem_stubParts hd id endpoint p hp h

section

variable {name indent : Text} (hname : '\n' ∉ name) (hbreak : '\n' ∉ indent)
include hname hbreak

/-- No line of a stub holds a line break. -/
theorem notMem_stubLine (id endpoint : Text) :
    ∀ t ∈ stubHead name :: (stubParts id endpoint).map fun p => indent ++ List.replicate p.1 ' ' ++ p.2,
      '\n' ∉ t := by
  refine List.forall_mem_cons.2 ⟨notMem_stubHead (by decide) hname, List.forall_mem_map.2 fun p hp => ?_⟩
  simp only [List.mem_append, not_or]
  exact ⟨⟨hbreak, fun h => absurd (List.eq_of_mem_replicate h) (by decide)⟩,
    notMem_stubParts (by decide) id endpoint p hp⟩

theorem count_stubText (id endpoint : Text) : (stubText name id endpoint indent false).count '\n' = 6 := by
  have hlength := @length_splitOn '\n' (stubText name id endpoint indent false)
  rw [stubText_lines, splitOn_joinWith (List.cons_ne_nil _ _) (notMem_stubLine hname hbreak id endpoint)]
    at hlength
  rw [stubText_lines]
  exact (Nat.succ.inj hlength).symm

theorem unbroken_stubText (hindent : ∀ c ∈ indent, isBlank c = true) (id endpoint : Text) :
    unbroken (stubText name id endpoint indent false) = stubText name id endpoint indent true := by
  have hparts : (stubParts id endpoint).map (fun p => trimStart (indent ++ List.replicate p.1 ' ' ++ p.2)) =
      (stubParts id endpoint).map (·.2) :=
    List.map_congr_left fun p hp =>
      trimStart_append (List.forall_mem_append.2 ⟨hindent, isBlank_of_mem_replicate⟩)
        (trimmed_stubParts id endpoint p hp)
  rw [stubText_lines, unbroken_joinWith (notMem_stubLine hname hbreak id endpoint), List.map_map,
    Function.comp_def, hparts, stubText_single]

end

/-! ### Literals -/

/-- Where the two strings of a stub stand. -/
theorem stubText_strings (name indent : Text) (singleLine : Bool) :
    ∃ before between behind, ∀ id endpoint, stubText name id endpoint indent singleLine =
      before ++ "fetch(".toList ++ Json.quoted endpoint ++ between ++ "id: ".toList ++ Json.quoted id ++ behind := by
  have hreturn : "return fetch(".toList = "return ".toList ++ "fetch(".toList := by decide
  have hbody : "body: JSON.stringify(\x7b id: ".toList = "body: JSON.stringify(\x7b ".toList ++ "id: ".toList := by
    decide
  let gap := stubGap indent singleLine
  let middle := gap 4 ++ "method: \"POST\",".toList ++
    (gap 4 ++ "headers: \x7b \"Content-Type\": \"application/json\" \x7d,".toList)
  let close := gap 2 ++ "\x7d).then((r) => r.json());".toList ++ (gap 0 ++ "\x7d".toList)
  refine ⟨stubHead name ++ gap 2 ++ "return ".toList,
    ", \x7b".toList ++ middle ++ gap 4 ++ "body: JSON.stringify(\x7b ".toList,
    ", args: [...arguments] \x7d),".toList ++ close, fun id endpoint => ?_⟩
  rw [stubText_eq, stubParts, hreturn, hbody]
  simp only [List.flatMap_cons, List.flatMap_nil, List.append_nil, List.append_assoc, gap, middle, close]

/-- The strings of a stub cannot end early, and its layouts differ in the gaps between its parts only. -/
theorem stubText_literals {name indent : Text} (hname : '\n' ∉ name ∧ '\r' ∉ name) (hbreak : '\n' ∉ indent)
    (hindent : ∀ c ∈ indent, isBlank c = true) :
    (∀ singleLine, ∃ before between behind, ∀ id endpoint,
      stubText name id endpoint indent singleLine =
        before ++ "fetch(".toList ++ Json.quoted endpoint ++ between ++ "id: ".toList ++ Json.quoted id ++ behind) ∧
      (∀ value, ∃ body, Json.quoted value = '"' :: body ∧ Json.Decodes Json.readString body value) ∧
      ∀ id endpoint,
        ('\n' ∉ stubText name id endpoint indent true ∧ '\r' ∉ stubText name id endpoint indent true) ∧
        (stubText name id endpoint indent false).count '\n' = 6 ∧
        unbroken (stubText name id endpoint indent false) = stubText name id endpoint indent true :=
  ⟨stubText_strings name indent, fun value => ⟨_, rfl, Json.readString_quoted value⟩, fun id endpoint =>
    ⟨⟨notMem_stubText_single (by decide) hname.1 id endpoint indent,
      notMem_stubText_single (by decide) hname.2 id endpoint indent⟩,
      count_stubText hname.1 hbreak id endpoint, unbroken_stubText hname.1 hbreak hindent id endpoint⟩⟩

/-- An endpoint that holds a quote, a line break and what would end the call stays one string. -/
theorem stubText_literals_hostile :
    (∃ body, Json.quoted "\"\n) //".toList = '"' :: body ∧
        Json.Decodes Json.readString body "\"\n) //".toList) ∧
      '\n' ∉ stubText "f".toList "f".toList "\"\n) //".toList "\t".toList true ∧
      (stubText "f".toList "f".toList "\"\n) //".toList "\t".toList false).count '\n' = 6 := by
  have hindent : ∀ c ∈ "\t".toList, isBlank c = true := List.all_eq_true.1 (by decide)
  obtain ⟨_, hread, hlines⟩ := @stubText_literals "f".toList "\t".toList (by decide) (by decide) hindent
  obtain ⟨hsingle, hcount, _⟩ := hlines "f".toList "\"\n) //".toList
  exact ⟨hread _, hsingle.1, hcount⟩

end ServerSplit
