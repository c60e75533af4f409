import Kernelwright.Graph.Node

/-!
# Diagnostics

Findings that do not stop the generation of a kernel: the kernel may be incomplete where one is
reported.
-/

namespace Kernelwright

/-- What a diagnostic is about. -/
inductive DiagnosticCode where
  /-- A value of undetermined kind was left out. -/
  | illegalValue
  /-- A node could not be lowered. -/
  | genericHandler
  /-- A deoptimization was turned into the write of a flag. -/
  | deoptPoint
  /-- The generation failed. -/
  | generationFailed
deriving DecidableEq, Repr, Inhabited

def DiagnosticCode.text : DiagnosticCode → String
  | illegalValue => "W0100"
  | genericHandler => "W0101"
  | deoptPoint => "W0102"
  | generationFailed => "E0100"

/-- How serious a finding is. -/
inductive Severity where
  | error
  | warning
deriving DecidableEq, Repr, Inhabited

def Severity.text : Severity → String
  | error => "error"
  | warning => "warning"

/-- A finding. -/
structure Diagnostic where
  code : Option DiagnosticCode
  severity : Severity
  node : Option NodeId
  message : String
  hint : Option String
deriving DecidableEq, Repr, Inhabited

namespace Diagnostic

def warning (code : DiagnosticCode) (node : NodeId) (message : String) : Diagnostic :=
  ⟨some code, .warning, some node, message, none⟩

/-- The displayed form of a diagnostic; a hint has a line of its own. -/
def text (d : Diagnostic) : String :=
  d.severity.text ++ d.code.elim "" (fun c => "[" ++ c.text ++ "]") ++ ": "
    ++ d.node.elim "" (fun n => n.text ++ ": ")
    ++ d.message ++ d.hint.elim "" (fun h => "\n  hint: " ++ h)

end Diagnostic

end Kernelwright
