import ScopeIR.Instr.Basic
import ScopeIR.Operand.Text

/-! Lexical units of compilation and what building them leaves behind. -/

namespace ScopeIR

inductive ScopeKind where
  | scriptBody
  | moduleBody
  | classBody
  | metaClassBody
  | method
  | closure
  | forBody
  | evalScript
  deriving DecidableEq

namespace ScopeKind

/-- Runs inside the dynamic scope around it and carries a closure id. -/
def isClosureLike : ScopeKind → Bool
  | .closure | .forBody | .evalScript => true
  | _ => false

/-- Blocks and the bodies of `for` loops. -/
def isClosure : ScopeKind → Bool
  | .closure | .forBody => true
  | _ => false

def isModuleBody : ScopeKind → Bool
  | .moduleBody | .classBody | .metaClassBody => true
  | _ => false

/-- Holds class variables; the body of a metaclass does not. -/
def holdsClassVars : ScopeKind → Bool
  | .moduleBody | .classBody => true
  | _ => false

/-- An eval script runs in its caller's binding, which has escaped before anything is built. -/
def initialFlags : ScopeKind → ScopeFlags
  | .evalScript => {.bindingHasEscaped}
  | _ => ∅

def text : ScopeKind → String
  | .scriptBody => "script"
  | .moduleBody => "module"
  | .classBody => "class"
  | .metaClassBody => "metaclass"
  | .method => "method"
  | .closure => "closure"
  | .forBody => "for"
  | .evalScript => "eval"

end ScopeKind

/-- The way an eval script was entered. -/
inductive EvalType where
  | instanceEval
  | moduleEval
  | bindingEval
  deriving DecidableEq

structure Scope where
  id : ScopeId
  kind : ScopeKind
  name : Symbol
  file : String
  line : Int32
  parent : Option ScopeId
  closures : List ScopeId
  closureId : Option UInt64
  refined : Bool
  flags : ScopeFlags
  nextLabel : UInt64
  nextTemp : UInt64
  /-- Missing until the scope is finished. -/
  instrs : Option (List Instr)
  deriving DecidableEq

namespace Scope

/-- The header line of listings. -/
def text (s : Scope) : String :=
  let parent := match s.parent with
    | some p => s!" in {p.text}"
    | none => ""
  s!"{s.id.text} {s.kind.text} {s.name.listed} ({s.file}:{s.line}){parent}"

def isFinished (s : Scope) : Bool := s.flags.contains .flagsComputed

end Scope

end ScopeIR
