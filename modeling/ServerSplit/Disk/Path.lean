import ServerSplit.Text.Basic

/-! Paths as texts: names between slashes. A single dot names the directory that it stands in, two dots
the one around it. -/
namespace ServerSplit.Path

def dot : Text := ['.']

def dots : Text := ['.', '.']

/-- The names of a path. -/
def names (path : Text) : List Text := Text.splitOn '/' path

/-- A path below a directory. -/
def join (directory path : Text) : Text :=
  if directory.getLast? = some '/' then directory ++ path else directory ++ ['/'] ++ path

/-- A path, last character first, without slashes and single dots at its end; the root and a lone dot
stay. -/
def trimReversed : Text → Text
  | '/' :: c :: r => trimReversed (c :: r)
  | '.' :: '/' :: r => trimReversed ('/' :: r)
  | r => r
termination_by r => r.length

/-- The path of the directory that a path stands in; empty for the working directory. The root and the
empty path stand in none. -/
def parent? (path : Text) : Option Text :=
  match trimReversed path.reverse with
  | [] | ['/'] => none
  | r => some (trimReversed (r.dropWhile (· ≠ '/'))).reverse

end ServerSplit.Path
