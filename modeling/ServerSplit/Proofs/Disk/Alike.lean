import ServerSplit.Proofs.Disk.Walk

/-! Disks that are alike where a path leads. What is done with the path, and with the paths of the directories
around it, does the same to both. -/
namespace ServerSplit

namespace Path

theorem length_trimReversed_le (r : Text) : (trimReversed r).length ≤ r.length := by
  fun_induction trimReversed r with
  | case1 c r ih => exact ih.trans (Nat.le_succ _)
  | case2 r ih => exact ih.trans (Nat.le_succ _)
  | case3 r => exact Nat.le_refl _

theorem trimReversed_slash (c : Char) (r : Text) : trimReversed ('/' :: c :: r) = trimReversed (c :: r) := by
  rw [trimReversed]

/-- What is taken from the end of a path ends with a slash, where it leaves more than the root. -/
theorem trimReversed_cases (r : Text) :
    trimReversed r = r ∨ trimReversed r = ['/'] ∨ ∃ s, r = s ++ '/' :: trimReversed r := by
  fun_induction trimReversed r with
  | case1 c r ih =>
    rcases ih with h | h | ⟨s, h⟩
    · exact .inr (.inr ⟨[], by rw [h]; rfl⟩)
    · exact .inr (.inl h)
    · exact .inr (.inr ⟨'/' :: s, by rw [List.cons_append, ← h]⟩)
  | case2 r ih =>
    rcases ih with h | h | ⟨s, h⟩
    · cases r with
      | nil => exact .inr (.inl h)
      | cons c r =>
        have hlength := length_trimReversed_le (c :: r)
        rw [← trimReversed_slash, h] at hlength
        exact (Nat.not_succ_le_self _ hlength).elim
    · exact .inr (.inl h)
    · exact .inr (.inr ⟨'.' :: s, by rw [List.cons_append, ← h]⟩)
  | case3 r => exact .inl rfl

private theorem trimReversed_append {r : Text} (h : trimReversed r ≠ ['/']) : ∃ s, r = s ++ trimReversed r := by
  rcases trimReversed_cases r with hr | hr | ⟨s, hr⟩
  · exact ⟨[], hr.symm⟩
  · exact (h hr).elim
  · exact ⟨s ++ ['/'], by simpa using hr⟩

/-- The directory that a path stands in is the working directory, the root, or what the path says before one of
its slashes. -/
theorem parent_eq_some {path q : Text} (h : parent? path = some q) :
    q = [] ∨ q = ['/'] ∨ ∃ rest, path = q ++ '/' :: rest := by
  unfold parent? at h
  split at h
  · cases h
  · cases h
  · rename_i hroot
    obtain rfl := Option.some.inj h
    obtain ⟨s, hs⟩ := trimReversed_append hroot
    have hsplit := List.takeWhile_append_dropWhile (p := (· ≠ '/')) (l := trimReversed path.reverse)
    have hhead := List.head?_dropWhile_not (· ≠ '/') (trimReversed path.reverse)
    generalize (trimReversed path.reverse).takeWhile (· ≠ '/') = name at hsplit
    generalize (trimReversed path.reverse).dropWhile (· ≠ '/') = around at hsplit hhead ⊢
    rw [← hsplit] at hs
    have hpath (before rest : Text) (he : path.reverse = rest ++ '/' :: before) :
        path = before.reverse ++ '/' :: rest.reverse := by
      rw [← List.reverse_reverse path, he]
      simp
    match around, hhead with
    | [], _ => exact .inl (by simp [trimReversed])
    | [c], hhead =>
      obtain rfl : c = '/' := by simpa using hhead
      exact .inr (.inl (by simp [trimReversed]))
    | c :: e :: r, hhead =>
      obtain rfl : c = '/' := by simpa using hhead
      rw [trimReversed_slash]
      rcases trimReversed_cases (e :: r) with hr | hr | ⟨t, hr⟩
      · exact .inr (.inr ⟨_, hpath _ (s ++ name) (by rw [hr, hs, List.append_assoc])⟩)
      · exact .inr (.inl (by rw [hr]; rfl))
      · generalize trimReversed (e :: r) = rest at hr ⊢
        exact .inr (.inr ⟨_, hpath rest (s ++ name ++ '/' :: t) (by rw [hs, hr]; simp)⟩)

end Path

namespace Disk

/-! ### The ways along a path -/

/-- The ways that a walk comes past, whatever stands there. -/
def trail (w : Way) : List Text → List Way
  | [] => [w]
  | n :: ns =>
    w :: match next w n with
      | none => []
      | some u => trail u ns

/-- The ways that a path comes past, from a working directory. -/
def ways (here path : Text) : List Way :=
  match ({ here } : Disk).namesFrom path with
  | .ok ns => trail [] ns
  | .error _ => []

theorem mem_trail_self (w : Way) (ns : List Text) : w ∈ trail w ns := by
  cases ns <;> simp [trail]

theorem trail_append (w : Way) (ns ms : List Text) : trail w ns ⊆ trail w (ns ++ ms) := by
  induction ns generalizing w with
  | nil =>
    intro v hv
    obtain rfl := List.mem_singleton.1 hv
    exact mem_trail_self v ms
  | cons n ns ih =>
    rw [List.cons_append, trail, trail]
    refine List.cons_subset_cons w ?_
    cases next w n with
    | none => simp
    | some u => exact ih u

/-- Empty names lead nowhere else. -/
theorem eq_of_mem_trail {w v : Way} {ns : List Text} (hns : ∀ n ∈ ns, n = []) (h : v ∈ trail w ns) : v = w := by
  induction ns with
  | nil => exact List.mem_singleton.1 h
  | cons n ns ih =>
    obtain ⟨rfl, hrest⟩ := List.forall_mem_cons.1 hns
    exact (List.mem_cons.1 h).elim id (ih hrest)

theorem mem_trail_of_walk {d : Disk} {w v : Way} {ns : List Text} (h : d.walk w ns = .ok v) : v ∈ trail w ns := by
  induction ns generalizing w with
  | nil =>
    cases h
    simp [trail]
  | cons n ns ih =>
    obtain ⟨-, u, hu, hv⟩ := walk_cons_ok.1 h
    rw [trail, hu]
    exact List.mem_cons_of_mem w (ih hv)

theorem ways_of_namesFrom {d : Disk} {path : Text} {ns : List Text} (h : d.namesFrom path = .ok ns) :
    ways d.here path = trail [] ns := by
  unfold ways
  rw [show ({ here := d.here } : Disk).namesFrom path = d.namesFrom path from rfl, h]

/-- The ways along the path of the directory around are among those along the path. -/
theorem ways_parent {here path q : Text} (h : Path.parent? path = some q) {w : Way} (hw : w ∈ ways here q) :
    w = [] ∨ w ∈ ways here path := by
  unfold ways at hw ⊢
  cases hq : ({ here } : Disk).namesFrom q with
  | error e => simp [hq] at hw
  | ok ns =>
    simp only [hq] at hw
    rcases Path.parent_eq_some h with rfl | rfl | ⟨rest, rfl⟩
    · cases hq
    · refine .inl (eq_of_mem_trail (fun n hn => ?_) hw)
      simpa [Path.names, Text.splitOn] using mem_names_of_namesFrom hq hn
    · rw [namesFrom_append hq rest]
      exact .inr (trail_append _ _ _ hw)

theorem mem_ways_of_target {d : Disk} {path : Text} {w : Way} (h : d.target path = .ok (some w)) :
    w ∈ ways d.here path := by
  obtain ⟨ms, n, blanks, u, hns, -, hn, hu, hdir, rfl⟩ := target_eq_some h
  have hwalk : d.walk [] (ms ++ [n]) = .ok (u ++ [n]) := by
    rw [walk_append, hu, ok_bind]
    exact walk_cons_ok.2 ⟨hdir, _, next_name u hn, rfl⟩
  rw [ways_of_namesFrom hns, List.append_cons]
  exact trail_append _ _ _ (mem_trail_of_walk hwalk)

/-! ### Two disks -/

/-- Two disks below one working directory that have the same nodes at some ways and the same files at others. -/
structure Alike (here : Text) (seen kept : Way → Prop) (d₁ d₂ : Disk) : Prop where
  here₁ : d₁.here = here
  here₂ : d₂.here = here
  nodes : ∀ w, seen w → d₁.lookup w = d₂.lookup w
  files : ∀ v, kept v → d₁.file? v = d₂.file? v

/-- A path that comes past no other ways than those. -/
def Within (here : Text) (seen : Way → Prop) (path : Text) : Prop := ∀ w ∈ ways here path, w = [] ∨ seen w

/-- Two steps that both fail for one reason, or both leave disks that are related. -/
inductive Both (R : Disk → Disk → Prop) : Except Fault Disk → Except Fault Disk → Prop
  | failed (e : Fault) : Both R (.error e) (.error e)
  | done {d₁ d₂ : Disk} (h : R d₁ d₂) : Both R (.ok d₁) (.ok d₂)

variable {here path : Text} {seen kept : Way → Prop} {d₁ d₂ : Disk}

theorem Within.parent {q : Text} (h : Within here seen path) (hq : Path.parent? path = some q) :
    Within here seen q := fun w hw => (ways_parent hq hw).elim .inl (h w)

namespace Alike

theorem lookup (h : Alike here seen kept d₁ d₂) {w : Way} (hw : w = [] ∨ seen w) : d₁.lookup w = d₂.lookup w := by
  rcases hw with rfl | hw
  · rfl
  · exact h.nodes w hw

theorem namesFrom (h : Alike here seen kept d₁ d₂) (path : Text) : d₁.namesFrom path = d₂.namesFrom path := by
  unfold Disk.namesFrom
  rw [h.here₁, h.here₂]

theorem walk (h : Alike here seen kept d₁ d₂) {w : Way} {ns : List Text}
    (hns : ∀ v ∈ trail w ns, v = [] ∨ seen v) : d₁.walk w ns = d₂.walk w ns := by
  induction ns generalizing w with
  | nil => rfl
  | cons n ns ih =>
    rw [walk_cons, walk_cons, h.lookup (hns w (mem_trail_self w _))]
    rw [trail] at hns
    cases hn : next w n with
    | none => rfl
    | some u =>
      rw [hn] at hns
      simp only [ih fun v hv => hns v (List.mem_cons_of_mem w hv)]

theorem find (h : Alike here seen kept d₁ d₂) (hpath : Within here seen path) : d₁.find path = d₂.find path := by
  unfold Disk.find
  rw [h.namesFrom path]
  cases hns : d₂.namesFrom path with
  | error e => rfl
  | ok ns =>
    have hways : ∀ v ∈ trail [] ns, v = [] ∨ seen v := by
      rw [← ways_of_namesFrom hns, h.here₂]
      exact hpath
    rw [ok_bind, ok_bind, h.walk hways]
    cases hw : d₂.walk [] ns with
    | error e => rfl
    | ok w => rw [ok_bind, ok_bind, h.lookup (hways w (mem_trail_of_walk hw))]

theorem exists? (h : Alike here seen kept d₁ d₂) (hpath : Within here seen path) :
    d₁.exists? path = d₂.exists? path := by
  unfold Disk.exists?
  rw [h.find hpath]

theorem isDirectory (h : Alike here seen kept d₁ d₂) (hpath : Within here seen path) :
    d₁.isDirectory path = d₂.isDirectory path := by
  unfold Disk.isDirectory
  rw [h.find hpath]

theorem target (h : Alike here seen kept d₁ d₂) (hpath : Within here seen path) :
    d₁.target path = d₂.target path := by
  unfold Disk.target
  rw [h.namesFrom path]
  cases hns : d₂.namesFrom path with
  | error e => rfl
  | ok ns =>
    have hsplit : (ns.reverse.dropWhile (·.isEmpty)).reverse ++ (ns.reverse.takeWhile (·.isEmpty)).reverse = ns := by
      rw [← List.reverse_append, List.takeWhile_append_dropWhile, List.reverse_reverse]
    rw [ok_bind, ok_bind]
    dsimp only
    rw [h.walk fun v hv => hpath v ?_]
    rw [← h.here₂, ways_of_namesFrom hns, ← hsplit]
    exact trail_append _ _ _ hv

theorem insert (h : Alike here seen kept d₁ d₂) {w : Way} (hw : w ≠ []) (n : Node) :
    Alike here seen kept (d₁.insert w n) (d₂.insert w n) where
  here₁ := h.here₁
  here₂ := h.here₂
  nodes v hv := by rw [lookup_insert d₁ hw, lookup_insert d₂ hw, h.nodes v hv]
  files v hv := by
    have hfile := h.files v hv
    unfold file? at hfile ⊢
    rw [lookup_insert d₁ hw, lookup_insert d₂ hw]
    by_cases hvw : v = w
    · simp [hvw]
    · simpa [hvw] using hfile

/-- What is done at the target of a path is done alike, if it turns on the node there and puts another in its
place. -/
theorem atTarget (h : Alike here seen kept d₁ d₂) (hpath : Within here seen path)
    {k₁ k₂ : Option Way → Except Fault Disk} (hnone : Both (Alike here seen kept) (k₁ none) (k₂ none))
    (hsome : ∀ w, d₁.lookup w = d₂.lookup w → (∀ n, Alike here seen kept (d₁.insert w n) (d₂.insert w n)) →
      Both (Alike here seen kept) (k₁ (some w)) (k₂ (some w))) :
    Both (Alike here seen kept) (d₁.target path >>= k₁) (d₂.target path >>= k₂) := by
  rw [h.target hpath]
  cases ht : d₂.target path with
  | error e => exact .failed e
  | ok t =>
    rw [ok_bind, ok_bind]
    cases t with
    | none => exact hnone
    | some w =>
      have hne : w ≠ [] := by
        obtain ⟨ms, n, blanks, u, -, -, -, -, -, rfl⟩ := target_eq_some ht
        simp
      exact hsome w (h.lookup (hpath w (h.here₂ ▸ mem_ways_of_target ht))) fun n => h.insert hne n

theorem makeDirectory (h : Alike here seen kept d₁ d₂) (hpath : Within here seen path) :
    Both (Alike here seen kept) (d₁.makeDirectory path) (d₂.makeDirectory path) := by
  unfold Disk.makeDirectory
  refine h.atTarget hpath (.failed _) fun w hlookup hinsert => ?_
  dsimp only
  rw [hlookup]
  split
  · exact .failed _
  · exact .done (hinsert _)

theorem write (h : Alike here seen kept d₁ d₂) (hpath : Within here seen path) (bytes : List UInt8) :
    Both (Alike here seen kept) (d₁.write path bytes) (d₂.write path bytes) := by
  unfold Disk.write
  refine h.atTarget hpath (.failed _) fun w hlookup hinsert => ?_
  dsimp only
  rw [hlookup]
  split
  · exact .failed _
  · split
    · exact .failed _
    · exact .done (hinsert _)

theorem settle (h : Alike here seen kept d₁ d₂) (hpath : Within here seen path) :
    Alike here seen kept (d₁.settle path).1 (d₂.settle path).1 ∧ (d₁.settle path).2 = (d₂.settle path).2 := by
  have hmade := h.makeDirectory hpath
  unfold Disk.settle
  generalize d₁.makeDirectory path = r₁ at hmade ⊢
  generalize d₂.makeDirectory path = r₂ at hmade ⊢
  cases hmade with
  | failed e =>
    dsimp only
    rw [h.isDirectory hpath]
    exact ⟨h, rfl⟩
  | done h' => exact ⟨h', rfl⟩

/-- The directories around a directory are made alike, as far as they can be. -/
theorem makeDirectories (h : Alike here seen kept d₁ d₂) (hpath : Within here seen path) (n : Nat) :
    Alike here seen kept (Disk.makeDirectories n path d₁).1 (Disk.makeDirectories n path d₂).1 ∧
      (Disk.makeDirectories n path d₁).2 = (Disk.makeDirectories n path d₂).2 := by
  induction n generalizing path d₁ d₂ with
  | zero => exact ⟨h, rfl⟩
  | succ n ih =>
    unfold Disk.makeDirectories
    by_cases hnil : path = []
    · rw [if_pos hnil, if_pos hnil]
      exact ⟨h, rfl⟩
    · rw [if_neg hnil, if_neg hnil]
      have hmade := h.makeDirectory hpath
      have hsettle := h.settle hpath
      generalize d₁.makeDirectory path = r₁ at hmade ⊢
      generalize d₂.makeDirectory path = r₂ at hmade ⊢
      cases hmade with
      | done => exact hsettle
      | failed e =>
        cases e with
        | notFound =>
          dsimp only
          cases hparent : Path.parent? path with
          | none => exact ⟨h, rfl⟩
          | some q =>
            dsimp only
            have hrest := ih h (hpath.parent hparent)
            generalize Disk.makeDirectories n q d₁ = m₁ at hrest ⊢
            generalize Disk.makeDirectories n q d₂ = m₂ at hrest ⊢
            obtain ⟨e₁, r₁⟩ := m₁
            obtain ⟨e₂, r₂⟩ := m₂
            obtain ⟨halike, rfl : r₁ = r₂⟩ := hrest
            cases r₁ with
            | error e => exact ⟨halike, rfl⟩
            | ok u => exact halike.settle hpath
        | _ => exact hsettle

theorem makeAll (h : Alike here seen kept d₁ d₂) (hpath : Within here seen path) :
    Alike here seen kept (Disk.makeAll path d₁).1 (Disk.makeAll path d₂).1 ∧
      (Disk.makeAll path d₁).2 = (Disk.makeAll path d₂).2 := h.makeDirectories hpath _

end Alike

end Disk

end ServerSplit
