import Mathlib.Data.List.TakeWhile
import ServerSplit.Proofs.Disk

/-! Where the names of a path lead. A walk goes through directories only, so it takes the same way on every
disk that has these directories; and a node that a path makes stands in a directory. -/
namespace ServerSplit

namespace Text

variable {sep : Char}

theorem after_append {p t r : Text} (h : after p t = some r) (s : Text) : after p (t ++ s) = some (r ++ s) := by
  induction p generalizing t with
  | nil =>
    cases h
    rfl
  | cons c p ih =>
    cases t with
    | nil => cases h
    | cons d t =>
      unfold after at h ⊢
      split at h
      · rename_i hc
        rw [List.cons_append]
        exact (if_pos hc).trans (ih h)
      · cases h

theorem notMem_of_mem_splitOn {t w : Text} (h : w ∈ splitOn sep t) : sep ∉ w := by
  induction t generalizing w with
  | nil => simp_all [splitOn]
  | cons c t ih =>
    by_cases hc : c = sep
    · rw [splitOn, if_pos hc] at h
      rcases List.mem_cons.1 h with rfl | h
      · simp
      · exact ih h
    · obtain ⟨u, us, hu, hcons⟩ := splitOn_cons_of_ne hc t
      rw [hcons] at h
      rw [hu] at ih
      rcases List.mem_cons.1 h with rfl | h
      · have hsep := ih (w := u) (by simp)
        simpa [Ne.symm hc] using hsep
      · exact ih (by simp [h])

/-- The last part is empty only where nothing stands behind the last separator. -/
theorem getLast?_splitOn {t : Text} (h : (splitOn sep t).getLast? = some []) : t = [] ∨ t.getLast? = some sep := by
  induction t with
  | nil => exact .inl rfl
  | cons c t ih =>
    right
    by_cases hc : c = sep
    · rw [splitOn, if_pos hc, List.getLast?_cons_of_ne_nil (splitOn_ne_nil sep t)] at h
      rcases ih h with rfl | ht
      · simp [hc]
      · rw [List.getLast?_cons, ht]
        rfl
    · obtain ⟨u, us, hu, hcons⟩ := splitOn_cons_of_ne hc t
      rw [hcons] at h
      cases us with
      | nil => simp at h
      | cons v us =>
        rw [List.getLast?_cons_cons] at h
        rw [hu, List.getLast?_cons_cons] at ih
        rcases ih h with rfl | ht
        · simp [splitOn] at hu
        · rw [List.getLast?_cons, ht]
          rfl

end Text

namespace Disk

/-! ### Names one after another -/

/-- Where a name leads from a directory, whatever else is on the disk. -/
def next (w : Way) (n : Text) : Option Way :=
  if n = [] ∨ n = Path.dot then some w
  else if n ≠ Path.dots then some (w ++ [n])
  else if w = [] then none
  else some w.dropLast

theorem next_name {n : Text} (w : Way) (h : n ≠ [] ∧ n ≠ Path.dot ∧ n ≠ Path.dots) :
    next w n = some (w ++ [n]) := by
  simp [next, h]

theorem walk_cons (d : Disk) (w : Way) (n : Text) (ns : List Text) :
    d.walk w (n :: ns) =
      match d.lookup w with
      | none => .error .notFound
      | some (.file _) => .error .notADirectory
      | some .directory =>
        match next w n with
        | none => .error .notFound
        | some u => d.walk u ns := by
  rw [walk]
  cases d.lookup w with
  | none => rfl
  | some m =>
    cases m with
    | file bytes => rfl
    | directory =>
      dsimp only [next]
      by_cases hsame : n = [] ∨ n = Path.dot
      · rw [if_pos hsame, if_pos hsame]
      · rw [if_neg hsame, if_neg hsame]
        by_cases hname : n ≠ Path.dots
        · rw [if_pos hname, if_pos hname]
        · rw [if_neg hname, if_neg hname]
          by_cases hroot : w = []
          · rw [if_pos hroot, if_pos hroot]
          · rw [if_neg hroot, if_neg hroot]

theorem walk_cons_ok {d : Disk} {w v : Way} {n : Text} {ns : List Text} :
    d.walk w (n :: ns) = .ok v ↔
      d.lookup w = some .directory ∧ ∃ u, next w n = some u ∧ d.walk u ns = .ok v := by
  rw [walk_cons]
  cases d.lookup w with
  | none => simp
  | some m =>
    cases m with
    | file bytes => simp
    | directory => cases next w n <;> simp

theorem walk_append (d : Disk) (w : Way) (ns ms : List Text) :
    d.walk w (ns ++ ms) = d.walk w ns >>= fun u => d.walk u ms := by
  induction ns generalizing w with
  | nil => rfl
  | cons n ns ih =>
    rw [List.cons_append, walk_cons, walk_cons]
    cases d.lookup w with
    | none => rfl
    | some m =>
      cases m with
      | file bytes => rfl
      | directory =>
        dsimp only
        cases next w n with
        | none => rfl
        | some u => exact ih u

/-- Directories that stay where they are keep the ways through them. -/
theorem walk_mono {d d' : Disk} (h : ∀ w, d.lookup w = some .directory → d'.lookup w = some .directory) {w v : Way}
    {ns : List Text} (hw : d.walk w ns = .ok v) : d'.walk w ns = .ok v := by
  induction ns generalizing w with
  | nil => exact hw
  | cons n ns ih =>
    obtain ⟨hdir, u, hu, hv⟩ := walk_cons_ok.1 hw
    exact walk_cons_ok.2 ⟨h w hdir, u, hu, ih hv⟩

theorem namesFrom_congr {d d' : Disk} (h : d'.here = d.here) (path : Text) : d'.namesFrom path = d.namesFrom path := by
  unfold namesFrom
  rw [h]

theorem mem_names_of_namesFrom {d : Disk} {path n : Text} {ns : List Text} (h : d.namesFrom path = .ok ns)
    (hn : n ∈ ns) : n ∈ Path.names path := by
  unfold namesFrom at h
  split at h
  · cases h
  · split at h
    · cases h
      exact hn
    · split at h
      · cases h
        cases hn
      · rename_i r hr
        cases h
        rw [Text.eq_append_of_after hr, Path.names, Text.splitOn_append]
        exact List.mem_append_right _ hn
      · cases h

theorem notMem_of_namesFrom {d : Disk} {path n : Text} {ns : List Text} (h : d.namesFrom path = .ok ns) (hn : n ∈ ns) :
    '/' ∉ n := Text.notMem_of_mem_splitOn (mem_names_of_namesFrom h hn)

/-- The names of a path that does not end with a slash end with one that is not empty. -/
theorem getLast?_namesFrom {d : Disk} {path : Text} {ns : List Text} (h : d.namesFrom path = .ok ns)
    (hslash : path.getLast? ≠ some '/') : ns.getLast? ≠ some [] := by
  have hparts : ∀ t : Text, t ≠ [] → (∃ s, path = s ++ t) → (Path.names t).getLast? ≠ some [] := by
    rintro t ht ⟨s, rfl⟩ hlast
    rcases Text.getLast?_splitOn hlast with rfl | hlast
    · exact ht rfl
    · exact hslash (by rw [List.getLast?_append, hlast, Option.some_or])
  unfold namesFrom at h
  split at h
  · cases h
  · rename_i hpath
    split at h
    · cases h
      exact hparts path hpath ⟨[], rfl⟩
    · split at h
      · cases h
        simp
      · rename_i r hr
        cases h
        have he := Text.eq_append_of_after hr
        refine hparts r ?_ ⟨d.here ++ ['/'], by simpa using he⟩
        rintro rfl
        exact hslash (by rw [he]; simp)
      · cases h

/-- What stands behind a slash adds its names. -/
theorem namesFrom_append {d : Disk} {path : Text} {ns : List Text} (h : d.namesFrom path = .ok ns) (rest : Text) :
    d.namesFrom (path ++ '/' :: rest) = .ok (ns ++ Path.names rest) := by
  unfold namesFrom at h ⊢
  split at h
  · cases h
  · rename_i hpath
    rw [if_neg (by simp), List.head?_append_of_ne_nil _ hpath]
    split at h
    · rename_i hrelative
      cases h
      rw [if_pos hrelative, Path.names, Text.splitOn_append]
      rfl
    · rename_i hrelative
      rw [if_neg hrelative]
      split at h
      · rename_i hafter
        cases h
        rw [Text.after_append hafter]
        rfl
      · rename_i r hafter
        cases h
        rw [Text.after_append hafter]
        exact congrArg Except.ok (Text.splitOn_append r rest)
      · cases h

/-! ### Targets -/

/-- A target is a name in the directory that the names before it lead to; only empty names stand behind it. -/
theorem target_eq_some {d : Disk} {path : Text} {w : Way} (h : d.target path = .ok (some w)) :
    ∃ ms n blanks u, d.namesFrom path = .ok (ms ++ n :: blanks) ∧ (∀ b ∈ blanks, b = []) ∧
      (n ≠ [] ∧ n ≠ Path.dot ∧ n ≠ Path.dots) ∧ d.walk [] ms = .ok u ∧ d.lookup u = some .directory ∧
      w = u ++ [n] := by
  unfold target at h
  obtain ⟨ns, hns, h⟩ := exists_of_bind h
  obtain ⟨v, hv, h⟩ := exists_of_bind h
  have hsplit := List.takeWhile_append_dropWhile (p := List.isEmpty) (l := ns.reverse)
  have hhead := List.head?_dropWhile_not List.isEmpty ns.reverse
  generalize hblanks : ns.reverse.takeWhile List.isEmpty = blanks at hsplit
  generalize ns.reverse.dropWhile List.isEmpty = kept at h hv hsplit hhead
  cases kept with
  | nil => cases h
  | cons n ms =>
    simp only [List.reverse_cons, List.getLast?_append, List.getLast?_singleton, Option.some_or] at h hv
    simp only [List.head?_cons] at hhead
    split at h
    · cases h
    · rename_i hdots
      cases h
      have hn : n ≠ [] ∧ n ≠ Path.dot ∧ n ≠ Path.dots := by
        refine ⟨?_, fun he => hdots (.inl he), fun he => hdots (.inr he)⟩
        rintro rfl
        cases hhead
      rw [walk_append] at hv
      obtain ⟨u, hu, hv⟩ := exists_of_bind hv
      obtain ⟨hdir, u', hu', hv⟩ := walk_cons_ok.1 hv
      rw [next_name u hn] at hu'
      cases hu'
      cases hv
      refine ⟨ms.reverse, n, blanks.reverse, u, ?_, fun b hb => ?_, hn, hu, hdir, rfl⟩
      · rw [hns, ← List.reverse_reverse ns, ← hsplit]
        simp
      · rw [List.mem_reverse, ← hblanks] at hb
        simpa using List.mem_takeWhile_imp hb

/-- Where a path does not end with a slash, its target is what it leads to, once something is there. -/
theorem find_of_target {d d' : Disk} {path : Text} {w : Way} {node : Node} (h : d.target path = .ok (some w))
    (hslash : path.getLast? ≠ some '/') (hhere : d'.here = d.here)
    (hdirs : ∀ u, d.lookup u = some .directory → d'.lookup u = some .directory) (hw : d'.lookup w = some node) :
    d'.find path = .ok (w, node) := by
  obtain ⟨ms, n, blanks, u, hns, hblanks, hn, hu, hdir, rfl⟩ := target_eq_some h
  have hlast := getLast?_namesFrom hns hslash
  have hnone : blanks = [] := by
    rcases List.eq_nil_or_concat blanks with rfl | ⟨bs, b, rfl⟩
    · rfl
    · rw [hblanks b (by simp), List.concat_eq_append, ← List.cons_append, ← List.append_assoc] at hlast
      exact (hlast List.getLast?_concat).elim
  subst hnone
  have hnames : d'.namesFrom path = .ok (ms ++ [n]) := (namesFrom_congr hhere path).trans hns
  have hwalk : d'.walk [] (ms ++ [n]) = .ok (u ++ [n]) := by
    rw [walk_append, walk_mono hdirs hu, ok_bind]
    exact walk_cons_ok.2 ⟨hdirs u hdir, _, next_name u hn, rfl⟩
  unfold find
  rw [hnames, ok_bind, hwalk, ok_bind, hw]
  rfl

end Disk

end ServerSplit
