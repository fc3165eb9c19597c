import ServerSplit.Proofs.Js.Semicolons

/-! What fills the gaps of a function does not show on one line. Two functions of the same words, which touch at
the same places, are written alike, whatever blanks and comments stand between the words. -/
namespace ServerSplit.Js.OneLine

open Tree

/-! ### Trees without their gaps -/

mutual

/-- A tree without comments, without the blanks before its tokens and without their places. A string or pattern
stays as it is, in one token. -/
def bare : Tree → Tree
  | .leaf t => .leaf ⟨t.kind, [], t.text, 0⟩
  | .node k ts =>
    .node k (if k = .string ∨ k = .regex then [.leaf ⟨.stringFragment, [], Tree.text (.node k ts), 0⟩]
      else bareOf ts)

def bareOf : List Tree → List Tree
  | [] => []
  | t :: ts => if t.isLeaf .comment then bareOf ts else bare t :: bareOf ts

end

theorem bareOf_eq (ts : List Tree) : bareOf ts = (ts.filter (!·.isLeaf .comment)).map bare := by
  induction ts with
  | nil => rfl
  | cons t ts ih =>
    rw [bareOf]
    cases hcomment : t.isLeaf .comment with
    | true => rw [if_pos rfl, ih, List.filter_cons_of_neg (by simp [hcomment])]
    | false => rw [if_neg (by simp), ih, List.filter_cons_of_pos (by simp [hcomment]), List.map_cons]

theorem isLeaf_bare (l : Leaf) (t : Tree) : (bare t).isLeaf l = t.isLeaf l := by cases t <;> rfl

theorem isSemicolon_bare (t : Tree) : isSemicolon (bare t) = isSemicolon t := by cases t <;> rfl

theorem any_bare (t : Option Tree) : (t.map bare).any isSemicolon = t.any isSemicolon := by
  cases t with
  | none => rfl
  | some t => exact isSemicolon_bare t

theorem head_bareOf (ts : List Tree) :
    (bareOf ts).head? = (ts.find? (!·.isLeaf .comment)).map bare := by
  rw [bareOf_eq, List.head?_map, List.head?_filter]

theorem find_reverse_bareOf (ts : List Tree) :
    (bareOf ts).reverse.find? (!·.isLeaf .comment) = (ts.reverse.find? (!·.isLeaf .comment)).map bare := by
  rw [bareOf_eq, ← List.map_reverse, ← List.filter_reverse, List.find?_map, List.find?_filter]
  refine congrArg _ (congrArg (fun p => List.find? p ts.reverse) ?_)
  funext t
  simp [isLeaf_bare]

/-- Unless a comment stands before its semicolon, a statement lacks one if it does without the comments. -/
theorem lacksSemicolon_bare {s : Site} (hlate : s.isLate = false)
    (hkind : s.kind ≠ .fieldDefinition → s.isFollowed = false) :
    lacksSemicolon s.kind (bareOf s.children) (bareOf s.behind).head? = s.lacks := by
  unfold Site.lacks lacksSemicolon
  rw [find_reverse_bareOf, any_bare, head_bareOf, any_bare]
  change (s.kind.takesSemicolon && !s.isClosed && _) = (s.kind.takesSemicolon && !s.isClosed && _)
  cases hclosed : s.isClosed with
  | true => simp
  | false =>
    refine congrArg (s.kind.takesSemicolon && !false && !·) (Bool.eq_iff_iff.2 ⟨fun hfind => ?_, fun hhead => ?_⟩)
    · have hfollowed : s.isFollowed = true :=
        any_find_semicolon (fun t ht => by simp_all [isComment]) (fun t ht => by simp [isComment_of_isSemicolon ht])
          hfind
      by_cases hfield : s.kind = .fieldDefinition
      · simpa [Site.isLate, hfield, hclosed, hfollowed] using hlate
      · rw [hkind hfield] at hfollowed
        cases hfollowed
    · refine any_find_semicolon (p := fun _ => true) (fun _ _ => rfl) (fun t ht => ?_) ?_
      · have hcomment := isComment_of_isSemicolon ht
        simp_all [isComment]
      · rwa [← List.head?_filter, List.filter_true]

/-- What an item shows on one line: the text of a word, or whether a statement lacks its semicolon. -/
def Item.sketch : Item → Text ⊕ Bool
  | .word w => .inl w.text
  | .ends s => .inr s.lacks

/-- No statement but a field has its semicolon behind it, and none behind a comment. -/
def Site.IsPlain (s : Site) : Prop := s.isLate = false ∧ (s.kind ≠ .fieldDefinition → s.isFollowed = false)

theorem text_literal (k : Kind) (t : Text) : Tree.text (.node k [.leaf ⟨.stringFragment, [], t, 0⟩]) = t :=
  List.append_nil t

mutual

/-- Without its comments a tree has the words that it has with them, and the same statements lack a
semicolon. -/
theorem items_bare (parent : Option Kind) (behind : List Tree) (t : Tree)
    (h : ∀ s, .ends s ∈ items parent behind t → s.IsPlain) :
    (items parent (bareOf behind) (bare t)).map Item.sketch = (items parent behind t).map Item.sketch := by
  cases t with
  | leaf t =>
    rw [bare, items, items]
    split <;> rfl
  | node k ts =>
    rw [items] at h
    rw [bare, items, items]
    by_cases hk : k = .string ∨ k = .regex
    · simp only [if_pos hk, List.map_cons, List.map_nil, Item.sketch, Word.ofLiteral, text_literal]
    · simp only [if_neg hk] at h ⊢
      rw [List.map_append, List.map_append,
        itemsOf_bare (some k) ts fun s hs => h s (List.mem_append_left _ hs)]
      refine congrArg _ ?_
      split
      · rename_i hends
        obtain ⟨hlate, hfollowed⟩ := h ⟨k, ts, behind⟩ (by simp [hends])
        have hlacks := lacksSemicolon_bare hlate hfollowed
        exact congrArg (fun b => [Sum.inr b]) hlacks
      · rfl

theorem itemsOf_bare (parent : Option Kind) (ts : List Tree)
    (h : ∀ s, .ends s ∈ itemsOf parent ts → s.IsPlain) :
    (itemsOf parent (bareOf ts)).map Item.sketch = (itemsOf parent ts).map Item.sketch := by
  cases ts with
  | nil => rfl
  | cons t ts =>
    rw [itemsOf] at h ⊢
    have hts := itemsOf_bare parent ts fun s hs => h s (List.mem_append_right _ hs)
    rw [bareOf]
    split
    · rename_i hcomment
      have hnone : items parent ts t = [] := by
        cases t with
        | leaf t => exact if_pos (of_decide_eq_true hcomment)
        | node => cases hcomment
      rw [hts, hnone, List.nil_append]
    · rw [itemsOf, List.map_append, List.map_append, hts,
        items_bare parent ts t fun s hs => h s (List.mem_append_left _ hs)]

end

/-! ### Lines of words that touch at the same places -/

end ServerSplit.Js.OneLine
