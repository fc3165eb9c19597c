import ServerSplit.Text.Basic

/-! Findings that do not stop a pass. -/
namespace ServerSplit

inductive Severity
  | error
  | warning
  | info
  deriving Repr, DecidableEq

def Severity.label : Severity → String
  | .error => "error"
  | .warning => "warning"
  | .info => "info"

inductive DiagnosticKind
  /-- A directive of a whole file. -/
  | orphanDirective
  /-- A function whose identifier is taken. -/
  | duplicateFunction
  /-- A directive inside a function that is taken out already. -/
  | nestedDirective
  deriving Repr, DecidableEq

namespace DiagnosticKind

def label : DiagnosticKind → String
  | .orphanDirective => "orphan_directive"
  | .duplicateFunction => "duplicate_function"
  | .nestedDirective => "nested_directive"

def severity : DiagnosticKind → Severity
  | .orphanDirective | .duplicateFunction => .warning
  | .nestedDirective => .info

end DiagnosticKind

structure Diagnostic where
  kind : DiagnosticKind
  message : Text
  file : Text
  line : Nat
  deriving Repr, DecidableEq

def Diagnostic.severity (d : Diagnostic) : Severity := d.kind.severity

end ServerSplit
