import ServerSplit.Glob.Parse
import ServerSplit.Text.Utf8

/-! Matching paths, byte by byte. A part takes each of the texts that may be left before it to the texts
that may be left behind it. -/
namespace ServerSplit.Glob

abbrev Bytes := List UInt8

/-- The texts without those of the same length as an earlier one. All are ends of one text, so the
length tells them apart. -/
def distinct (rests : List Bytes) : List Bytes :=
  rests.foldr (fun r seen => if seen.any (·.length = r.length) then seen else r :: seen) []

/-- All ends of a text. -/
def tails : Bytes → List Bytes
  | [] => [[]]
  | b :: bs => (b :: bs) :: tails bs

/-- What follows given bytes at the head of a text. -/
def afterBytes : Bytes → Bytes → Option Bytes
  | [], bs => some bs
  | _ :: _, [] => none
  | p :: ps, b :: bs => if p = b then afterBytes ps bs else none

def afterSlash (rests : List Bytes) : List Bytes := rests.filterMap (afterBytes (Text.charBytes '/'))

/-- The ends of all texts. -/
def allTails (rests : List Bytes) : List Bytes := distinct (rests.flatMap tails)

/-- Whether a byte is in a class. A range of characters that take several bytes holds the bytes of its
first, the bytes of its last, and those between the last byte of the first and the first byte of the
last. -/
def inRange (b : UInt8) (r : Char × Char) : Bool :=
  let first := Text.charBytes r.1
  let last := Text.charBytes r.2
  if r.1 = r.2 then first.contains b
  else first.contains b || last.contains b ||
    (match first.getLast?, last.head? with
      | some lo, some hi => decide (lo ≤ b) && decide (b ≤ hi)
      | _, _ => false)

mutual

/-- Whether a part can only be nothing, for want of branches that are something. -/
def isNothing : Part → Bool
  | .either branches => branchesAreNothing branches
  | _ => false

def areNothing : List Part → Bool
  | [] => true
  | p :: ps => isNothing p && areNothing ps

def branchesAreNothing : List (List Part) → Bool
  | [] => true
  | b :: bs => areNothing b && branchesAreNothing bs

end

mutual

def step : Part → List Bytes → List Bytes
  | .char c, rests => rests.filterMap (afterBytes (Text.charBytes c))
  | .any, rests => rests.filterMap List.tail?
  | .many, rests => allTails rests
  | .leading, rests => distinct (rests ++ afterSlash rests ++ afterSlash (allTails rests))
  | .trailing, rests => allTails (afterSlash rests)
  | .between, rests =>
    let behind := afterSlash rests
    distinct (behind ++ afterSlash (allTails behind))
  | .oneOf negated ranges, rests =>
    rests.filterMap fun
      | [] => none
      | b :: bs => if (ranges.any (inRange b)) != negated then some bs else none
  | .either branches, rests =>
    if branchesAreNothing branches then rests else distinct (stepEither branches rests)

def stepAll : List Part → List Bytes → List Bytes
  | [], rests => rests
  | p :: ps, rests => stepAll ps (step p rests)

def stepEither : List (List Part) → List Bytes → List Bytes
  | [], _ => []
  | b :: bs, rests => (if areNothing b then [] else stepAll b rests) ++ stepEither bs rests

end

/-- Whether a pattern stands for the whole of a text. -/
def matchesBytes (ps : List Part) (bs : Bytes) : Bool :=
  match ps with
  | [.leading] => true
  | ps => (stepAll ps [bs]).any List.isEmpty

/-- Whether a path is as a pattern says. A text that is no pattern fits no path. -/
def fits (pattern path : Text) : Bool :=
  match parse pattern with
  | .ok ps => matchesBytes ps (Text.bytes path)
  | .error _ => false

end ServerSplit.Glob
