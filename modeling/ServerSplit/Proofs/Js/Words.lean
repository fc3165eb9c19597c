import ServerSplit.Proofs.Js.Endings
import ServerSplit.Proofs.Js.Literals

/-! A tree on one line, told from its words. What is written for a tree is a row of words and of ends of
statements; a space stands between two words exactly where something stood between them in the source, and
a semicolon where a statement lacks its own. -/
namespace ServerSplit.Js.OneLine

open Tree

/-- What is written for a token of the source, and the bytes that it takes there. A string or a pattern is
written as one word. -/
structure Word where
  tokens : List Token
  text : Text
  start : Nat
  stop : Nat
  deriving DecidableEq

def Word.ofToken (parent : Option Kind) (t : Token) : Word := ⟨[t], tokenText parent t, t.start, t.stop⟩

/-- A string or a pattern. -/
def Word.ofLiteral (k : Kind) (ts : List Tree) : Word where
  tokens := tokensOf ts
  text :=
    let text := Tree.text (.node k ts)
    if k = .string then withoutContinuations text else replaceLineEnds [' '] text
  start := Tree.start (.node k ts)
  stop := Tree.stop (.node k ts)

/-- A statement or field that a semicolon ends, with the trees behind it. -/
structure Site where
  kind : Kind
  children : List Tree
  behind : List Tree

/-- Whether the statement gets a semicolon. -/
def Site.lacks (s : Site) : Bool := lacksSemicolon s.kind s.children s.behind.head?

inductive Item
  | word (w : Word)
  | ends (s : Site)

def Item.word? : Item → Option Word
  | .word w => some w
  | .ends _ => none

def Item.site? : Item → Option Site
  | .word _ => none
  | .ends s => some s

mutual

/-- The words of a tree in the order of the source, comments left out, and the end of each statement behind
its last word. The tree has a node of the kind `parent` around it, and the trees `behind` behind it. -/
def items (parent : Option Kind) (behind : List Tree) : Tree → List Item
  | .leaf t =>
    if t.kind = .comment then [] else [.word (.ofToken parent t)]
  | .node k ts =>
    if k = .string ∨ k = .regex then [.word (.ofLiteral k ts)]
    else itemsOf (some k) ts ++ if k.takesSemicolon then [.ends ⟨k, ts, behind⟩] else []

def itemsOf (parent : Option Kind) : List Tree → List Item
  | [] => []
  | t :: ts => items parent ts t ++ itemsOf parent ts

end

def wordsIn (is : List Item) : List Word := is.filterMap Item.word?

@[simp] theorem wordsIn_nil : wordsIn [] = [] := rfl

@[simp] theorem wordsIn_word (w : Word) (is : List Item) : wordsIn (.word w :: is) = w :: wordsIn is := rfl

@[simp] theorem wordsIn_ends (s : Site) (is : List Item) : wordsIn (.ends s :: is) = wordsIn is := rfl

@[simp] theorem wordsIn_append (is js : List Item) : wordsIn (is ++ js) = wordsIn is ++ wordsIn js :=
  List.filterMap_append

/-- The words of a tree. -/
def words (t : Tree) : List Word := wordsIn (items none [] t)

/-- What stands behind a tree changes none of its words. -/
theorem wordsIn_items (parent : Option Kind) (behind : List Tree) (t : Tree) :
    wordsIn (items parent behind t) = wordsIn (items parent [] t) := by
  cases t with
  | leaf t => rw [items, items]
  | node k ts =>
    rw [items, items]
    split
    · rfl
    · rw [wordsIn_append, wordsIn_append]
      split <;> rfl

/-- No word starts before the end of the one before it. -/
def Ordered (ws : List Word) : Prop := ws.IsChain fun v w => v.stop ≤ w.start

/-! ### A line of words -/

/-- One space between two words that do not touch, and nothing else. -/
def between : Option Word → Word → Text
  | none, _ => []
  | some v, w => if v.stop = w.start then [] else [' ']

/-- Words in a row behind the given word, with a semicolon at the end of each statement that `marked` holds
of. -/
def line (marked : Site → Bool) : Option Word → List Item → Text
  | _, [] => []
  | last, .word w :: is => between last w ++ w.text ++ line marked (some w) is
  | last, .ends s :: is => (if marked s then [';'] else []) ++ line marked last is

/-- The last word of a row that stands behind the given one. -/
def lastWord (last : Option Word) (is : List Item) : Option Word := (last.toList ++ wordsIn is).getLast?

theorem lastWord_nil (last : Option Word) : lastWord last [] = last := by cases last <;> rfl

theorem lastWord_word (last : Option Word) (w : Word) (is : List Item) :
    lastWord last (.word w :: is) = lastWord (some w) is := by
  cases last with
  | none => rfl
  | some v => exact List.getLast?_cons_cons

theorem lastWord_ends (last : Option Word) (s : Site) (is : List Item) :
    lastWord last (.ends s :: is) = lastWord last is := rfl

theorem lastWord_append (last : Option Word) (is js : List Item) :
    lastWord last (is ++ js) = lastWord (lastWord last is) js := by
  induction is generalizing last with
  | nil => rw [lastWord_nil, List.nil_append]
  | cons i is ih =>
    cases i with
    | word w => rw [List.cons_append, lastWord_word, lastWord_word, ih]
    | ends s => rw [List.cons_append, lastWord_ends, lastWord_ends, ih]

theorem line_append (marked : Site → Bool) (last : Option Word) (is js : List Item) :
    line marked last (is ++ js) = line marked last is ++ line marked (lastWord last is) js := by
  induction is generalizing last with
  | nil => rw [lastWord_nil]; rfl
  | cons i is ih =>
    cases i with
    | word w => simp only [List.cons_append, line, lastWord_word, ih, List.append_assoc]
    | ends s => simp only [List.cons_append, line, lastWord_ends, ih, List.append_assoc]

/-- Behind the last word of a row the words of the next one are in order, if those of both are. -/
theorem Ordered.behind {last : Option Word} {is js : List Item}
    (h : Ordered (last.toList ++ wordsIn (is ++ js))) :
    Ordered ((lastWord last is).toList ++ wordsIn js) := by
  rw [wordsIn_append, ← List.append_assoc] at h
  refine h.suffix ?_
  unfold lastWord
  cases hlast : (last.toList ++ wordsIn is).getLast? with
  | none => exact ⟨_, rfl⟩
  | some w =>
    obtain ⟨ws, hws⟩ := List.getLast?_eq_some_iff.1 hlast
    rw [hws]
    exact ⟨ws, by simp⟩

theorem Ordered.before {last : Option Word} {is js : List Item}
    (h : Ordered (last.toList ++ wordsIn (is ++ js))) : Ordered (last.toList ++ wordsIn is) := by
  rw [wordsIn_append, ← List.append_assoc] at h
  exact h.left_of_append

/-- What is put before a word that starts behind the last one. -/
theorem spaced_eq {last : Option Word} {w : Word} (h : Ordered (last.toList ++ [w])) :
    spaced (last.map (·.stop)) w.start w.text = between last w ++ w.text := by
  cases last with
  | none => rfl
  | some v =>
    have hle : v.stop ≤ w.start := (List.isChain_cons_cons.1 h).1
    simp only [spaced, between, Option.map_some]
    by_cases heq : v.stop = w.start
    · rw [if_neg (by omega), if_pos heq, List.nil_append]
    · rw [if_pos (by omega), if_neg heq]
      rfl

mutual

/-- What is written for a tree is the line of its words and of the ends of its statements. -/
theorem write_eq (parent : Option Kind) (behind : List Tree) (t : Tree) (last : Option Word)
    (h : Ordered (last.toList ++ wordsIn (items parent behind t))) :
    write parent behind.head? t (last.map (·.stop)) =
      (line Site.lacks last (items parent behind t), (lastWord last (items parent behind t)).map (·.stop)) := by
  cases t with
  | leaf t =>
    rw [write, items] at *
    split
    · rw [line, lastWord_nil]
    · rename_i hk
      rw [if_neg hk] at h
      rw [line, line, List.append_nil, lastWord_word, lastWord_nil, ← spaced_eq h]
      rfl
  | node k ts =>
    rw [write, items] at *
    split
    · rename_i hk
      rw [if_pos hk] at h
      rw [line, line, List.append_nil, lastWord_word, lastWord_nil, ← spaced_eq h]
      rfl
    · rename_i hk
      rw [if_neg hk] at h
      have hts := writeAll_eq (some k) ts last h.before
      simp only [hts, line_append, lastWord_append]
      by_cases hends : k.takesSemicolon = true
      · rw [if_pos hends, lastWord_ends, lastWord_nil, line, line, List.append_nil]
        rw [Site.lacks]
        split
        · rfl
        · rw [List.append_nil]
      · rw [if_neg hends, lastWord_nil, line, List.append_nil, lacksSemicolon]
        simp [hends]

theorem writeAll_eq (parent : Option Kind) (ts : List Tree) (last : Option Word)
    (h : Ordered (last.toList ++ wordsIn (itemsOf parent ts))) :
    writeAll parent ts (last.map (·.stop)) =
      (line Site.lacks last (itemsOf parent ts), (lastWord last (itemsOf parent ts)).map (·.stop)) := by
  cases ts with
  | nil => rw [writeAll, itemsOf, line, lastWord_nil]
  | cons t ts =>
    rw [itemsOf] at h ⊢
    rw [writeAll, write_eq parent ts t last h.before]
    simp only
    rw [writeAll_eq parent ts _ h.behind, line_append, lastWord_append]

end

/-- A tree on one line is the line of its words. -/
theorem oneLine_eq_line {t : Tree} (h : Ordered (words t)) (next : Option Tree) :
    t.oneLine next = line Site.lacks none (items none next.toList t) := by
  have hitems : Ordered (Option.toList none ++ wordsIn (items none next.toList t)) := by
    rw [wordsIn_items]
    exact h
  have hwrite := write_eq none next.toList t none hitems
  rw [Option.head?_toList] at hwrite
  exact congrArg Prod.fst hwrite

theorem line_congr {p q : Site → Bool} {is : List Item} (h : ∀ s, .ends s ∈ is → p s = q s)
    (last : Option Word) : line p last is = line q last is := by
  induction is generalizing last with
  | nil => rfl
  | cons i is ih =>
    have hrest : ∀ s, .ends s ∈ is → p s = q s := fun s hs => h s (List.mem_cons_of_mem _ hs)
    cases i with
    | word w => rw [line, line, ih hrest]
    | ends s => rw [line, line, ih hrest, h s (by simp)]

/-- A character that is neither a space nor a semicolon is in the line where it is in one of the words. -/
theorem mem_line {c : Char} (hspace : c ≠ ' ') (hsemicolon : c ≠ ';') {marked : Site → Bool}
    {last : Option Word} {is : List Item} :
    c ∈ line marked last is ↔ ∃ w ∈ wordsIn is, c ∈ w.text := by
  induction is generalizing last with
  | nil => simp [line]
  | cons i is ih =>
    cases i with
    | word w =>
      have hbetween : c ∉ between last w := by
        unfold between
        split
        · simp
        · split <;> simp [hspace]
      simp [line, hbetween, ih]
    | ends s =>
      have hmark : c ∉ (if marked s then [';'] else []) := by split <;> simp [hsemicolon]
      rw [line, List.mem_append, wordsIn_ends, ← @ih last]
      exact or_iff_right hmark

/-- The semicolons of a line are those of its words and one for each statement that is marked. -/
theorem count_line (marked : Site → Bool) (last : Option Word) (is : List Item) :
    (line marked last is).count ';' =
      ((wordsIn is).flatMap Word.text).count ';' + (is.filterMap Item.site?).countP marked := by
  induction is generalizing last with
  | nil => rfl
  | cons i is ih =>
    cases i with
    | word w =>
      have hbetween : (between last w).count ';' = 0 := by
        unfold between
        split
        · rfl
        · split <;> rfl
      rw [line, List.count_append, List.count_append, hbetween, ih, wordsIn_word, List.flatMap_cons,
        List.count_append, List.filterMap_cons]
      simp only [Item.site?]
      omega
    | ends s =>
      rw [line, List.count_append, ih, wordsIn_ends, List.filterMap_cons]
      simp only [Item.site?, List.countP_cons]
      split <;> simp +arith

/-! ### Trees of a source -/

/-- The words are in order and take no bytes but those from `a` to `b`. -/
structure Spans (a b : Nat) (ws : List Word) : Prop where
  ordered : Ordered ws
  start : ∀ w ∈ ws, a ≤ w.start
  stop : ∀ w ∈ ws, w.stop ≤ b

theorem Spans.nil {a b : Nat} : Spans a b [] := ⟨.nil, by simp, by simp⟩

theorem Spans.singleton {a b : Nat} {w : Word} (ha : a ≤ w.start) (hb : w.stop ≤ b) : Spans a b [w] :=
  ⟨.singleton w, List.forall_mem_singleton.2 ha, List.forall_mem_singleton.2 hb⟩

theorem Spans.append {a b c : Nat} {vs ws : List Word} (hv : Spans a b vs) (hw : Spans b c ws) (hab : a ≤ b)
    (hbc : b ≤ c) : Spans a c (vs ++ ws) where
  ordered := by
    refine List.isChain_append.2 ⟨hv.ordered, hw.ordered, ?_⟩
    intro v hlast w hhead
    exact Nat.le_trans (hv.stop v (List.mem_of_mem_getLast? hlast)) (hw.start w (List.mem_of_mem_head? hhead))
  start := by
    refine List.forall_mem_append.2 ⟨hv.start, fun w h => ?_⟩
    exact Nat.le_trans hab (hw.start w h)
  stop := by
    refine List.forall_mem_append.2 ⟨fun v h => ?_, hw.stop⟩
    exact Nat.le_trans (hv.stop v h) hbc

mutual

/-- The words of a tree that stands in a source stand where the tree does. -/
theorem items_spans (parent : Option Kind) (behind : List Tree) {n : Nat} {t : Tree} (h : Placed n t) :
    Spans n (n + (spell t.tokens).size) (wordsIn (items parent behind t)) := by
  cases t with
  | leaf t =>
    rw [items]
    split
    · exact .nil
    · exact .singleton h.le_start (Nat.le_of_eq h.stop_eq)
  | node k ts =>
    rw [items]
    split
    · exact .singleton h.le_start (Nat.le_of_eq h.stop_eq)
    · have hts := itemsOf_spans (some k) h.children
      rw [tokens, wordsIn_append]
      split <;> simpa using hts

theorem itemsOf_spans (parent : Option Kind) {n : Nat} {ts : List Tree} (h : PlacedAll n ts) :
    Spans n (n + (spell (tokensOf ts)).size) (wordsIn (itemsOf parent ts)) := by
  cases ts with
  | nil => exact .nil
  | cons t ts =>
    obtain ⟨ht, hts⟩ := placedAll_cons h
    rw [ht.stop_eq] at hts
    rw [itemsOf, wordsIn_append, tokensOf, spell_append, Text.size_append, ← Nat.add_assoc]
    exact (items_spans parent ts ht).append (itemsOf_spans parent hts) (Nat.le_add_right ..)
      (Nat.le_add_right ..)

end

/-- The words of all trees in the tree of a source are in order. -/
theorem parse_ordered {source : Text} {tree t : Tree} (h : parse source = some tree) (ht : Holds tree t) :
    Ordered (words t) := by
  obtain ⟨ts, b, rfl, hplaced, -⟩ := parse_placed h
  cases ht with
  | refl =>
    rw [words, items, if_neg (by simp), wordsIn_append]
    simpa [Kind.takesSemicolon] using (itemsOf_spans (some .program) hplaced).ordered
  | child hu ht =>
    obtain ⟨n, -, hn⟩ := hplaced.placed_of_mem hu
    obtain ⟨m, -, hm⟩ := hn.holds ht
    exact (items_spans none [] hm).ordered

/-! ### What the words are made of -/

def isCode (t : Token) : Bool := t.kind ≠ .comment

mutual

/-- The words of a tree are made of its tokens, each in its place; no token but a comment is left out. -/
theorem items_tokens (parent : Option Kind) (behind : List Tree) (t : Tree) :
    ((wordsIn (items parent behind t)).flatMap (·.tokens)).filter isCode = t.tokens.filter isCode := by
  cases t with
  | leaf t =>
    rw [items]
    split
    · rename_i hk
      simp [tokens, isCode, hk]
    · rfl
  | node k ts =>
    rw [items]
    split
    · simp [tokens, Word.ofLiteral]
    · rw [wordsIn_append, List.flatMap_append, List.filter_append, itemsOf_tokens, tokens]
      split <;> simp

theorem itemsOf_tokens (parent : Option Kind) (ts : List Tree) :
    ((wordsIn (itemsOf parent ts)).flatMap (·.tokens)).filter isCode = (tokensOf ts).filter isCode := by
  cases ts with
  | nil => rfl
  | cons t ts =>
    rw [itemsOf, wordsIn_append, List.flatMap_append, List.filter_append, items_tokens, itemsOf_tokens,
      tokensOf, List.filter_append]

end

/-! ### Where the words and the statements stand -/

/-- How a word comes from a tree: from a token of it that is no comment, or from a string or pattern in it. -/
inductive Word.Of (parent : Option Kind) (t : Tree) : Word → Prop
  | alone {u : Token} (h : t = .leaf u) (hu : u.kind ≠ .comment) : Of parent t (.ofToken parent u)
  | token {k : Kind} {ts : List Tree} {u : Token} (h : Holds t (.node k ts)) (hu : .leaf u ∈ ts)
    (hcode : u.kind ≠ .comment) : Of parent t (.ofToken (some k) u)
  | literal {k : Kind} {ts : List Tree} (h : Holds t (.node k ts)) (hk : k = .string ∨ k = .regex) :
    Of parent t (.ofLiteral k ts)

theorem Word.Of.child {parent : Option Kind} {k : Kind} {t : Tree} {ts : List Tree} {w : Word}
    (h : w.Of (some k) t) (ht : t ∈ ts) : w.Of parent (.node k ts) := by
  cases h with
  | alone h hu => exact .token (.refl _) (h ▸ ht) hu
  | token h hu hcode => exact .token (.child ht h) hu hcode
  | literal h hk => exact .literal (.child ht h) hk

mutual

theorem of_mem_items {parent : Option Kind} {behind : List Tree} {t : Tree} {w : Word}
    (h : w ∈ wordsIn (items parent behind t)) : w.Of parent t := by
  cases t with
  | leaf t =>
    rw [items] at h
    split at h
    · cases h
    · rename_i hk
      obtain rfl := List.mem_singleton.1 h
      exact .alone rfl hk
  | node k ts =>
    rw [items] at h
    split at h
    · rename_i hk
      obtain rfl := List.mem_singleton.1 h
      exact .literal (.refl _) hk
    · rw [wordsIn_append, List.mem_append] at h
      rcases h with h | h
      · obtain ⟨t, ht, hof⟩ := of_mem_itemsOf h
        exact hof.child ht
      · split at h <;> cases h

theorem of_mem_itemsOf {parent : Option Kind} {ts : List Tree} {w : Word}
    (h : w ∈ wordsIn (itemsOf parent ts)) : ∃ t ∈ ts, w.Of parent t := by
  cases ts with
  | nil => cases h
  | cons t ts =>
    rw [itemsOf, wordsIn_append, List.mem_append] at h
    rcases h with h | h
    · exact ⟨t, by simp, of_mem_items h⟩
    · obtain ⟨u, hu, hof⟩ := of_mem_itemsOf h
      exact ⟨u, List.mem_cons_of_mem _ hu, hof⟩

end

/-- The statements of a tree, in the order of their ends. -/
def sites (t : Tree) : List Site := (items none [] t).filterMap Item.site?

/-- The statement is a child of some node in the tree, with the trees behind it. -/
def Site.In (s : Site) (t : Tree) : Prop :=
  ∃ k as, Holds t (.node k (as ++ .node s.kind s.children :: s.behind))

theorem Site.In.child {s : Site} {k : Kind} {t : Tree} {ts : List Tree} (h : s.In t) (ht : t ∈ ts) :
    s.In (.node k ts) := by
  obtain ⟨l, as, h⟩ := h
  exact ⟨l, as, .child ht h⟩

mutual

/-- A statement whose end is among the items of a tree is the tree itself or stands in it. -/
theorem in_of_mem_items {parent : Option Kind} {behind : List Tree} {t : Tree} {s : Site}
    (h : .ends s ∈ items parent behind t) :
    s.kind.takesSemicolon = true ∧ ((t = .node s.kind s.children ∧ s.behind = behind) ∨ s.In t) := by
  cases t with
  | leaf t =>
    rw [items] at h
    split at h <;> simp at h
  | node k ts =>
    rw [items] at h
    split at h
    · simp at h
    · rcases List.mem_append.1 h with h | h
      · obtain ⟨hk, ⟨as, rfl⟩ | ⟨t, ht, hin⟩⟩ := in_of_mem_itemsOf h
        · exact ⟨hk, .inr ⟨k, as, .refl _⟩⟩
        · exact ⟨hk, .inr (hin.child ht)⟩
      · split at h
        · rename_i hk
          obtain rfl : s = ⟨k, ts, behind⟩ := by simpa using h
          exact ⟨hk, .inl ⟨rfl, rfl⟩⟩
        · simp at h

theorem in_of_mem_itemsOf {parent : Option Kind} {ts : List Tree} {s : Site}
    (h : .ends s ∈ itemsOf parent ts) : s.kind.takesSemicolon = true ∧
      ((∃ as, ts = as ++ .node s.kind s.children :: s.behind) ∨ ∃ t ∈ ts, s.In t) := by
  cases ts with
  | nil => simp [itemsOf] at h
  | cons t ts =>
    rcases List.mem_append.1 h with h | h
    · obtain ⟨hk, ⟨rfl, rfl⟩ | hin⟩ := in_of_mem_items h
      · exact ⟨hk, .inl ⟨[], rfl⟩⟩
      · exact ⟨hk, .inr ⟨t, by simp, hin⟩⟩
    · obtain ⟨hk, ⟨as, rfl⟩ | ⟨u, hu, hin⟩⟩ := in_of_mem_itemsOf h
      · exact ⟨hk, .inl ⟨t :: as, rfl⟩⟩
      · exact ⟨hk, .inr ⟨u, List.mem_cons_of_mem _ hu, hin⟩⟩

end

/-- In a function no statement but those inside it ends. -/
theorem in_of_mem_function {f : Tree} (hf : f.isFunction = true) {parent : Option Kind} {behind : List Tree}
    {s : Site} (h : .ends s ∈ items parent behind f) : s.kind.takesSemicolon = true ∧ s.In f := by
  obtain ⟨hk, ⟨rfl, -⟩ | hin⟩ := in_of_mem_items h
  · have hfunction : s.kind.takesSemicolon = false := by
      cases hkind : s.kind <;> first | rfl | (rw [hkind] at hf; cases hf)
    rw [hk] at hfunction
    cases hfunction
  · exact ⟨hk, hin⟩

/-! ### What a tree is written for each node in it -/

theorem itemsOf_append (parent : Option Kind) (as : List Tree) (t : Tree) (bs : List Tree) :
    ∃ pre, itemsOf parent (as ++ t :: bs) = pre ++ (items parent bs t ++ itemsOf parent bs) := by
  induction as with
  | nil => exact ⟨[], rfl⟩
  | cons a as ih =>
    obtain ⟨pre, hpre⟩ := ih
    exact ⟨items parent (as ++ t :: bs) a ++ pre, by rw [List.cons_append, itemsOf, hpre, List.append_assoc]⟩

/-- A child of a node that is no token has its items among those of the node. -/
theorem items_child {k : Kind} {as bs : List Tree} {t : Tree}
    (hliteral : IsLiteral (.node k (as ++ t :: bs))) (ht : ∀ u, t ≠ .leaf u) (parent : Option Kind)
    (behind : List Tree) :
    ∃ pre post, items parent behind (.node k (as ++ t :: bs)) = pre ++ (items (some k) bs t ++ post) := by
  have hk : ¬ (k = .string ∨ k = .regex) := by
    rintro (rfl | rfl) <;>
    · obtain ⟨u, hu⟩ := hliteral t (by simp)
      exact ht u hu
  obtain ⟨pre, hpre⟩ := itemsOf_append (some k) as t bs
  rw [items, if_neg hk, hpre]
  exact ⟨pre, _, by simp only [List.append_assoc]; rfl⟩

/-- Every node in a tree whose literals hold nothing but tokens has its items among those of the tree. -/
theorem items_of_holds {t : Tree} {k : Kind} {ts : List Tree} (hliteral : t.Every IsLiteral)
    (h : Holds t (.node k ts)) (parent : Option Kind) (behind : List Tree) :
    ∃ p b pre post, items parent behind t = pre ++ (items p b (.node k ts) ++ post) := by
  generalize hu : Tree.node k ts = u at h
  induction h generalizing parent behind with
  | refl => exact ⟨parent, behind, [], [], by simp⟩
  | @child l us v u hv h ih =>
    obtain ⟨as, bs, rfl⟩ := List.append_of_mem hv
    obtain ⟨hself, hchildren⟩ := every_node.1 hliteral
    have hnode : ∀ w, v ≠ .leaf w := by
      rintro w rfl
      cases h
      cases hu
    obtain ⟨pre, post, hitems⟩ := items_child hself hnode parent behind
    obtain ⟨p, b, pre', post', hitems'⟩ := ih (hchildren v hv) (some l) bs hu
    exact ⟨p, b, pre ++ pre', post' ++ post, by rw [hitems, hitems']; simp only [List.append_assoc]⟩

/-- The statements of a tree are those that stand in it. -/
theorem mem_sites_of_in {t : Tree} (hliteral : t.Every IsLiteral) {s : Site} (hs : s.In t)
    (hkind : s.kind.takesSemicolon = true) : s ∈ sites t := by
  obtain ⟨k, as, hholds⟩ := hs
  obtain ⟨p, b, pre, post, hitems⟩ := items_of_holds hliteral hholds none []
  obtain ⟨pre', post', hitems'⟩ := items_child (hliteral _ hholds) (by simp) p b
  have hnone : ¬ (s.kind = .string ∨ s.kind = .regex) := by
    rintro (h | h) <;> (rw [h] at hkind; cases hkind)
  refine List.mem_filterMap.2 ⟨.ends s, ?_, rfl⟩
  rw [hitems, hitems', items, if_neg hnone, if_pos hkind]
  simp

end ServerSplit.Js.OneLine
