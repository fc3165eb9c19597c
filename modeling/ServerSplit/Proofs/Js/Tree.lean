import ServerSplit.Js.Tree
import ServerSplit.Proofs.Text.Slice

/-! What every tree that is read has: its tokens stand in a row where the text has them, and no node of
it is empty. -/
namespace ServerSplit.Js

/-- The text from which a row of tokens was read. -/
def spell (ts : List Token) : Text := ts.flatMap fun t => t.before ++ t.text

@[simp] theorem spell_nil : spell [] = [] := rfl

@[simp] theorem spell_cons (t : Token) (ts : List Token) :
    spell (t :: ts) = t.before ++ t.text ++ spell ts := rfl

@[simp] theorem spell_append (ts us : List Token) : spell (ts ++ us) = spell ts ++ spell us := by
  simp [spell]

/-- Tokens that stand in a row from byte `n` on, none of them empty. -/
def InRow : Nat → List Token → Prop
  | _, [] => True
  | n, t :: ts => t.start = n + t.before.size ∧ t.text ≠ [] ∧ InRow t.stop ts

theorem inRow_append {n : Nat} {ts us : List Token} :
    InRow n (ts ++ us) ↔ InRow n ts ∧ InRow (n + (spell ts).size) us := by
  induction ts generalizing n with
  | nil => simp [InRow]
  | cons t ts ih =>
    simp only [List.cons_append, InRow, ih, spell_cons, Text.size_append, Token.stop, and_assoc]
    refine and_congr_right fun hs => and_congr_right fun _ => and_congr_right fun _ => ?_
    rw [hs, ← Nat.add_assoc, ← Nat.add_assoc]

/-- The fewest trees, comments apart, of which a node of a kind is made. -/
def Kind.least : Kind → Nat
  | .function _ | .cover => 2
  | _ => 1

theorem Kind.least_pos (k : Kind) : 0 < k.least := by
  unfold least
  split <;> omega

namespace Tree

mutual

def decEq : (t u : Tree) → Decidable (t = u)
  | .leaf a, .leaf b => decidable_of_iff (a = b) (by simp)
  | .node k ts, .node l us =>
    match (inferInstance : Decidable (k = l)), decEqs ts us with
    | isTrue hk, isTrue hts => isTrue (by rw [hk, hts])
    | isFalse hk, _ => isFalse fun h => hk (node.inj h).1
    | _, isFalse hts => isFalse fun h => hts (node.inj h).2
  | .leaf _, .node _ _ => isFalse fun h => (nomatch h)
  | .node _ _, .leaf _ => isFalse fun h => (nomatch h)

def decEqs : (ts us : List Tree) → Decidable (ts = us)
  | [], [] => isTrue rfl
  | t :: ts, u :: us =>
    match decEq t u, decEqs ts us with
    | isTrue ht, isTrue hts => isTrue (by rw [ht, hts])
    | isFalse ht, _ => isFalse fun h => ht (List.cons.inj h).1
    | _, isFalse hts => isFalse fun h => hts (List.cons.inj h).2
  | [], _ :: _ => isFalse fun h => (nomatch h)
  | _ :: _, [] => isFalse fun h => (nomatch h)

end

instance : DecidableEq Tree := decEq

@[simp] theorem tokensOf_append (ts us : List Tree) :
    tokensOf (ts ++ us) = tokensOf ts ++ tokensOf us := by
  induction ts with
  | nil => simp [tokensOf]
  | cons t ts ih => simp [tokensOf, ih]

@[simp] theorem tokensOf_singleton (t : Tree) : tokensOf [t] = tokens t := by simp [tokensOf]

/-- The number of trees that are no comments. -/
def solid (ts : List Tree) : Nat := ts.countP (!·.isComment)

@[simp] theorem solid_nil : solid [] = 0 := rfl

@[simp] theorem solid_append (ts us : List Tree) : solid (ts ++ us) = solid ts + solid us := by
  simp [solid]

@[simp] theorem solid_reverse (ts : List Tree) : solid ts.reverse = solid ts := by simp [solid]

theorem solid_cons (t : Tree) (ts : List Tree) :
    solid (t :: ts) = (if t.isComment then 0 else 1) + solid ts := by
  unfold solid
  by_cases h : t.isComment <;> simp [h, Nat.add_comm]

mutual

/-- No node of the tree has fewer children than a node of its kind must have. -/
def Full : Tree → Prop
  | .leaf _ => True
  | .node k ts => k.least ≤ solid ts ∧ FullAll ts

def FullAll : List Tree → Prop
  | [] => True
  | t :: ts => Full t ∧ FullAll ts

end

theorem fullAll_iff {ts : List Tree} : FullAll ts ↔ ∀ t ∈ ts, Full t := by
  induction ts with
  | nil => simp [FullAll]
  | cons t ts ih => simp [FullAll, ih]

@[simp] theorem fullAll_append {ts us : List Tree} :
    FullAll (ts ++ us) ↔ FullAll ts ∧ FullAll us := by
  simp only [fullAll_iff, List.forall_mem_append]

@[simp] theorem fullAll_reverse {ts : List Tree} : FullAll ts.reverse ↔ FullAll ts := by
  simp [fullAll_iff]

theorem isComment_node (k : Kind) (ts : List Tree) : (node k ts).isComment = false := rfl

end Tree

end ServerSplit.Js
