import ServerSplit.Main
import ServerSplit.Proofs.Absorbed
import ServerSplit.Proofs.Again
import ServerSplit.Proofs.Body
import ServerSplit.Proofs.Calls
import ServerSplit.Proofs.Directives
import ServerSplit.Proofs.Dispatcher
import ServerSplit.Proofs.Failure
import ServerSplit.Proofs.Faults
import ServerSplit.Proofs.Frame
import ServerSplit.Proofs.Independence
import ServerSplit.Proofs.Js.Continuations
import ServerSplit.Proofs.Js.Gaps
import ServerSplit.Proofs.Js.Templates
import ServerSplit.Proofs.Nesting
import ServerSplit.Proofs.Request
import ServerSplit.Proofs.Routing
import ServerSplit.Proofs.Scan
import ServerSplit.Proofs.Sdk
import ServerSplit.Proofs.Slug.Normal
import ServerSplit.Proofs.Strictness
import ServerSplit.Proofs.Unseen
import ServerSplit.Proofs.Written.Parses
