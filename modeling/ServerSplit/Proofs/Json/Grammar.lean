import Mathlib.Algebra.Group.Int.Defs
import ServerSplit.Json.Basic

/-! The ways to write a value of JSON. Blanks may stand between its parts and a character of a string may be
escaped in several ways. A value stands here for all that is written: the members of an object are in any
order, and their keys may be repeated. Numbers are whole, of 64 bits with a sign or without one. -/
namespace ServerSplit.Json

/-! ### Blanks -/

/-- What may stand between the parts of a value. -/
def Blanks (g : Text) : Prop := ∀ c ∈ g, c ∈ [' ', '\n', '\t', '\r']

instance (g : Text) : Decidable (Blanks g) := List.decidableBAll _ g

theorem Blanks.nil : Blanks [] := nofun

/-- What leads to the first item of a list, or to another one. -/
inductive Leads : Bool → Text → Prop
  | first {g : Text} (hg : Blanks g) : Leads true g
  | next {g g' : Text} (hg : Blanks g) (hg' : Blanks g') : Leads false (g ++ ',' :: g')

/-! ### Strings -/

/-- The letters that stand behind a backslash for a character. -/
def shortEscapes : List (Char × Char) :=
  [('"', '"'), ('\\', '\\'), ('/', '/'), ('b', '\x08'), ('f', '\x0c'), ('n', '\n'), ('r', '\r'), ('t', '\t')]

/-- A digit of base sixteen, in lower or upper case, and its value. -/
inductive HexDigit : Char → Nat → Prop
  | lower {n : Nat} (h : n < 16) : HexDigit n.digitChar n
  | upper {n : Nat} (h : n < 16) : HexDigit n.digitChar.toUpper n

/-- Four digits and their value. -/
inductive Hex : Text → Nat → Prop
  | four {a b c d : Char} {k l m n : Nat} (ha : HexDigit a k) (hb : HexDigit b l) (hc : HexDigit c m)
      (hd : HexDigit d n) : Hex [a, b, c, d] (((k * 16 + l) * 16 + m) * 16 + n)

/-- What may stand behind a backslash, and the character that is meant. Characters beyond the first plane take
two codes. -/
inductive Escape : Text → Char → Prop
  | short {e c : Char} (h : (e, c) ∈ shortEscapes) : Escape [e] c
  | code {ds : Text} {n : Nat} (h : Hex ds n) (hn : n < 0xD800 ∨ 0xDFFF < n) : Escape ('u' :: ds) (Char.ofNat n)
  | pair {ds es : Text} {m n : Nat} (h : Hex ds m) (hm : 0xD800 ≤ m ∧ m ≤ 0xDBFF) (h' : Hex es n)
      (hn : 0xDC00 ≤ n ∧ n ≤ 0xDFFF) :
      Escape ('u' :: (ds ++ '\\' :: 'u' :: es)) (Char.ofNat ((m - 0xD800) * 0x400 + (n - 0xDC00) + 0x10000))

/-- The ways to write a character in a string. -/
inductive Spells : Text → Char → Prop
  | self {c : Char} (hlow : 0x20 ≤ c.toNat) (hc : c ≠ '"' ∧ c ≠ '\\') : Spells [c] c
  | escape {e : Text} {c : Char} (h : Escape e c) : Spells ('\\' :: e) c

/-- The ways to write a string and its end, behind its opening quote or behind a character. -/
inductive Quotes : Text → Text → Prop
  | close : Quotes ['"'] []
  | char {w t s : Text} {c : Char} (h : Spells w c) (hs : Quotes t s) : Quotes (w ++ t) (c :: s)

/-! ### Values -/

mutual

/-- The ways to write a value. -/
inductive Writes : Text → Json → Prop
  | null : Writes "null".toList .null
  | bool (b : Bool) : Writes (if b then "true" else "false").toList (.bool b)
  | whole {n : Int} (hlow : -2 ^ 63 ≤ n) (hhigh : n < 2 ^ 64) : Writes (toString n).toList (.number (.whole n))
  | string {t s : Text} (h : Quotes t s) : Writes ('"' :: t) (.string s)
  | array {t : Text} {vs : List Json} (h : WritesItems true t vs) : Writes ('[' :: t) (.array vs)
  | object {t : Text} {ms : List (Text × Json)} (h : WritesMembers true t ms) : Writes ('\x7b' :: t) (.object ms)

/-- The ways to write the items of a list and its end, behind its bracket or behind an item. -/
inductive WritesItems : Bool → Text → List Json → Prop
  | close {first : Bool} {g : Text} (hg : Blanks g) : WritesItems first (g ++ [']']) []
  | item {first : Bool} {l t u : Text} {v : Json} {vs : List Json} (hl : Leads first l) (h : Writes t v)
      (hs : WritesItems false u vs) : WritesItems first (l ++ (t ++ u)) (v :: vs)

/-- The ways to write the members of an object and its end, behind its brace or behind a member. -/
inductive WritesMembers : Bool → Text → List (Text × Json) → Prop
  | close {first : Bool} {g : Text} (hg : Blanks g) : WritesMembers first (g ++ ['\x7d']) []
  | member {first : Bool} {l k g g' t u key : Text} {v : Json} {ms : List (Text × Json)} (hl : Leads first l)
      (hk : Quotes k key) (hg : Blanks g) (hg' : Blanks g') (h : Writes t v) (hs : WritesMembers false u ms) :
      WritesMembers first (l ++ '"' :: (k ++ (g ++ ':' :: (g' ++ (t ++ u))))) ((key, v) :: ms)

end

/-! ### Repeated keys -/

/-- Members without those whose key is repeated later. -/
def lastOfEach : List (Text × Json) → List (Text × Json)
  | [] => []
  | m :: ms => if ms.any (·.1 = m.1) then lastOfEach ms else m :: lastOfEach ms

/-- The order of the keys. -/
def byKey (a b : Text × Json) : Bool := !decide (b.1 < a.1)

mutual

/-- A value with the last member of each key alone, in the order of the keys. -/
def merged : Json → Json
  | .array vs => .array (mergedAll vs)
  | .object ms => .object ((lastOfEach (mergedIn ms)).mergeSort byKey)
  | v => v

def mergedAll : List Json → List Json
  | [] => []
  | v :: vs => merged v :: mergedAll vs

def mergedIn : List (Text × Json) → List (Text × Json)
  | [] => []
  | (k, v) :: ms => (k, merged v) :: mergedIn ms

end

end ServerSplit.Json
