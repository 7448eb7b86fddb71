import ScopeIR.Flags.Call
import ScopeIR.Flags.Coverage
import ScopeIR.Flags.Scope
import ScopeIR.Operand.Basic

/-! The instruction set, and what each instruction defines, targets, passes on and reveals about its
scope. -/

namespace ScopeIR

inductive BranchOp where
  | isTrue
  | isFalse
  | isNil
  | isUndefined
  | notEqual
  deriving DecidableEq

inductive CallType where
  | normal
  | functional
  deriving DecidableEq

structure Call where
  type : CallType
  result : Option Variable
  name : Symbol
  receiver : Operand
  args : List Operand
  block : Operand
  flags : CallFlags
  refined : Bool
  deriving DecidableEq

/-- A call of the overridden method with the arguments its caller was given. -/
structure ZSuper where
  scope : ScopeId
  result : Variable
  receiver : Operand
  args : List Operand
  block : Operand
  flags : CallFlags
  refined : Bool
  deriving DecidableEq

inductive TraceEvent where
  | line
  deriving DecidableEq

structure TracePoint where
  event : TraceEvent
  module : Variable
  method : Option Symbol
  file : String
  line : Int32
  deriving DecidableEq

inductive Parameter where
  | preRequired (position : UInt64)
  | optional (position : UInt64)
  | postRequired (position : UInt64)
  | rest
  | keyword (key : Symbol)
  | keywordRest
  deriving DecidableEq

inductive Helper where
  | isHashEmpty
  deriving DecidableEq

inductive Instr where
  | label (label : Label)
  | jump (target : Label)
  | nop
  | branch (op : BranchOp) (target : Label) (value : Operand) (test : Option Operand)
  | lineNumber (line : Int32) (coverage : Coverage)
  | tracePoint (point : TracePoint)
  | copy (result : Variable) (value : Operand)
  | call (call : Call)
  | zsuper (call : ZSuper)
  | aliasMethod (newName oldName : Operand)
  | searchConst (result : Variable) (start : Operand) (name : Symbol) (publicOnly : Bool)
  | searchModuleConst (result : Variable) (module : Operand) (name : Symbol) (publicOnly : Bool)
  | classVarModule (result : Variable) (start : Operand) (object : Option Operand)
  | getClassVar (result : Variable) (container : Operand) (name : Symbol)
  | putClassVar (container : Operand) (name : Symbol) (value : Operand)
  | getGlobal (result : Variable) (name : Symbol)
  | putGlobal (name : Symbol) (value : Operand)
  | helperCall (result : Variable) (helper : Helper) (args : List Operand)
  | loadImplicitClosure (result : Variable)
  | receive (result : Variable) (parameter : Parameter)
  | regionStart (rescuer : Label)
  | regionEnd
  | receiveException (result : Variable)
  | raise (value : Operand)
  | threadPoll
  | checkLocalJump (maybeLambda : Bool)
  | ret (value : Operand)
  | nonlocalReturn (value : Operand) (method : Option Symbol)
  | breakOut (value : Operand) (scope : ScopeId)
  deriving DecidableEq, Inhabited

namespace Instr

/-- The variable the instruction writes. -/
def result? : Instr → Option Variable
  | .copy r _ | .searchConst r .. | .searchModuleConst r .. | .classVarModule r ..
  | .getClassVar r .. | .getGlobal r _ | .helperCall r .. | .loadImplicitClosure r
  | .receive r _ | .receiveException r => some r
  | .call c => c.result
  | .zsuper z => some z.result
  | _ => none

/-- The label control may move to. -/
def target? : Instr → Option Label
  | .jump l | .branch _ l .. => some l
  | _ => none

/-- The literal closure passed as a block. -/
def closure? : Instr → Option ScopeId
  | .call { block := .closure id, .. } | .zsuper { block := .closure id, .. } => some id
  | _ => none

/-- Methods whose target can run code in the caller's binding. -/
def evalMethods : List String := ["eval", "instance_eval", "module_eval", "class_eval"]

/-- Methods whose target looks at the caller's frame. -/
def frameMethods : List String := ["block_given?", "iterator?", "__method__"]

/-- What calling a method of this name says about the calling scope. -/
def namedCallFlags (name : String) : ScopeFlags :=
  if name ∈ evalMethods then {.usesEval, .bindingHasEscaped}
  else if name = "binding" then {.bindingHasEscaped}
  else if name ∈ frameMethods then {.requiresFrame}
  else ∅

/-- What the instruction reveals about the scope that holds it. -/
def scopeFlags : Instr → ScopeFlags
  | .breakOut .. => {.hasBreakInstrs}
  | .nonlocalReturn .. => {.hasNonlocalReturns}
  | .zsuper _ => {.usesSuper, .usesZSuper, .requiresFrame}
  | .receive _ (.keyword _) | .receive _ .keywordRest => {.receivesKeywordArgs}
  | .call c =>
    namedCallFlags c.name.text ∪ match c.block with
      | .closure _ => {.canCaptureCallersBinding}
      | _ => ∅
  | _ => ∅

end Instr

end ScopeIR
