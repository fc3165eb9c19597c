import ServerSplit.Js.Gap

/-! Positions in a text together with what follows them. -/
namespace ServerSplit.Js.Repair

structure Spot where
  rest : Text
  offset : Nat := 0
  /-- The number of line feeds before. -/
  row : Nat := 0
  deriving Inhabited

namespace Spot

/-- The position behind the text `read`, which `rest` follows. -/
def behind (s : Spot) (read rest : Text) : Spot :=
  ⟨rest, s.offset + read.size, s.row + read.count '\n'⟩

def drop (s : Spot) (n : Nat) : Spot := s.behind (s.rest.take n) (s.rest.drop n)

def dropWhile (s : Spot) (p : Char → Bool) : Spot :=
  s.behind (s.rest.takeWhile p) (s.rest.dropWhile p)

end Spot

end ServerSplit.Js.Repair
