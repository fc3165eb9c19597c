import ServerSplit.Config.Check
import ServerSplit.Proofs.Run

/-! A pass over what a pass has made. Files without marked functions come out as they went in, so all
turns on the files that were rewritten: they must have a tree still, and no marked function. The module
for the server is text of the same kind, and need not have a tree either. -/
namespace ServerSplit.Pass

open Directive (topmost)

end ServerSplit.Pass
