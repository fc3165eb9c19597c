import ServerSplit.Disk.Basic

/-! What a run leaves behind: an exit code and what it wrote to the terminal. -/
namespace ServerSplit.Command

structure Outcome where
  code : Nat
  stdout : Text := []
  stderr : Text := []
  deriving Repr, DecidableEq

namespace Outcome

def success : Nat := 0

/-- The pass raised warnings that are denied. -/
def denied : Nat := 1

def failed : Nat := 2

def errorLine (message : Text) : Text := "Error: ".toList ++ message ++ ['\n']

/-- A run that ends with an error. -/
def failure (message : Text) : Outcome := { code := failed, stderr := errorLine message }

end Outcome

end ServerSplit.Command
