import ScopeIR.Instr.Text
import ScopeIR.Scope

/-! What can go wrong while scopes are built. -/

namespace ScopeIR

/-- A file and the one-based line an error points at. -/
structure Location where
  file : String
  line : Int32
  deriving DecidableEq

def Location.text (l : Location) : String := s!"{l.file}:{l.line}"

/-- Jumps out of a body that are legal only in some places. -/
inductive Exit where
  | break
  | next
  | redo
  | retry
  deriving DecidableEq

def Exit.word : Exit → String
  | .break => "break"
  | .next => "next"
  | .redo => "redo"
  | .retry => "retry"

/-- Causes that a caller may catch. -/
inductive BuildError where
  | noResult (instr : Instr)
  | noBranch (value test : Operand)
  | noEnsureBody
  | noEnsure
  | insideEnsureBody (scope : ScopeId)
  | alreadyFinished (scope : ScopeId)
  | invalidExit (exit : Exit) (place : Location)
  | exitFromEval (exit : Exit) (place : Location)
  deriving DecidableEq

/-- Why building stopped. All but `error` mean that what callers promise was not kept. -/
inductive Fault where
  | error (cause : BuildError)
  /-- A number left its word. -/
  | overflow
  | noScope (id : ScopeId)
  /-- Flags were inserted on a scope whose flags are final. -/
  | sealedFlags (id : ScopeId)
  deriving DecidableEq

/-- `x`, or the fault that a number left its word. -/
def orOverflow {α : Type} (x : Option α) : Except Fault α :=
  match x with
  | some a => .ok a
  | none => .error .overflow

end ScopeIR
