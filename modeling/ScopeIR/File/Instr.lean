import ScopeIR.File.Operand
import ScopeIR.Instr.Basic

/-! The format of instructions. -/

namespace ScopeIR.File

open Codec Variant

def callFlags : Codec CallFlags := flags CallFlag

def coverage : Codec Coverage := flags CoverageMode

def branchOp : Codec BranchOp := enum [.isTrue, .isFalse, .isNil, .isUndefined, .notEqual]

def callType : Codec CallType := enum [.normal, .functional]

def call : Codec Call :=
  (pair callType <| pair (option var) <| pair symbol <| pair operand <| pair (list operand) <|
    pair operand <| pair callFlags bool).map
    (fun (type, result, name, receiver, args, block, flags, refined) =>
      { type, result, name, receiver, args, block, flags, refined })
    (fun c => (c.type, c.result, c.name, c.receiver, c.args, c.block, c.flags, c.refined))

def zsuper : Codec ZSuper :=
  (pair scopeId <| pair var <| pair operand <| pair (list operand) <| pair operand <|
    pair callFlags bool).map
    (fun (scope, result, receiver, args, block, flags, refined) =>
      { scope, result, receiver, args, block, flags, refined })
    (fun z => (z.scope, z.result, z.receiver, z.args, z.block, z.flags, z.refined))

def traceEvent : Codec TraceEvent := enum [.line]

def tracePoint : Codec TracePoint :=
  (pair traceEvent <| pair var <| pair (option symbol) <| pair text i32).map
    (fun (event, module, method, file, line) => { event, module, method, file, line })
    (fun t => (t.event, t.module, t.method, t.file, t.line))

def parameter : Codec Parameter := choice [
  ⟨_, u64, .preRequired, fun | .preRequired i => some i | _ => none⟩,
  ⟨_, u64, .optional, fun | .optional i => some i | _ => none⟩,
  ⟨_, u64, .postRequired, fun | .postRequired i => some i | _ => none⟩,
  single .rest,
  ⟨_, symbol, .keyword, fun | .keyword key => some key | _ => none⟩,
  single .keywordRest]

def helper : Codec Helper := enum [.isHashEmpty]

def instr : Codec Instr := choice [
  ⟨_, label, .label, fun | .label l => some l | _ => none⟩,
  ⟨_, label, .jump, fun | .jump l => some l | _ => none⟩,
  single .nop,
  ⟨_, pair branchOp (pair label (pair operand (option operand))),
    fun (op, target, value, test) => .branch op target value test,
    fun | .branch op target value test => some (op, target, value, test) | _ => none⟩,
  ⟨_, pair i32 coverage, fun (line, coverage) => .lineNumber line coverage,
    fun | .lineNumber line coverage => some (line, coverage) | _ => none⟩,
  ⟨_, tracePoint, .tracePoint, fun | .tracePoint t => some t | _ => none⟩,
  ⟨_, pair var operand, fun (r, value) => .copy r value,
    fun | .copy r value => some (r, value) | _ => none⟩,
  ⟨_, call, .call, fun | .call c => some c | _ => none⟩,
  ⟨_, zsuper, .zsuper, fun | .zsuper z => some z | _ => none⟩,
  ⟨_, pair operand operand, fun (new, old) => .aliasMethod new old,
    fun | .aliasMethod new old => some (new, old) | _ => none⟩,
  ⟨_, pair var (pair operand (pair symbol bool)),
    fun (r, start, name, publicOnly) => .searchConst r start name publicOnly,
    fun | .searchConst r start name publicOnly => some (r, start, name, publicOnly) | _ => none⟩,
  ⟨_, pair var (pair operand (pair symbol bool)),
    fun (r, module, name, publicOnly) => .searchModuleConst r module name publicOnly,
    fun
    | .searchModuleConst r module name publicOnly => some (r, module, name, publicOnly)
    | _ => none⟩,
  ⟨_, pair var (pair operand (option operand)),
    fun (r, start, object) => .classVarModule r start object,
    fun | .classVarModule r start object => some (r, start, object) | _ => none⟩,
  ⟨_, pair var (pair operand symbol), fun (r, container, name) => .getClassVar r container name,
    fun | .getClassVar r container name => some (r, container, name) | _ => none⟩,
  ⟨_, pair operand (pair symbol operand),
    fun (container, name, value) => .putClassVar container name value,
    fun | .putClassVar container name value => some (container, name, value) | _ => none⟩,
  ⟨_, pair var symbol, fun (r, name) => .getGlobal r name,
    fun | .getGlobal r name => some (r, name) | _ => none⟩,
  ⟨_, pair symbol operand, fun (name, value) => .putGlobal name value,
    fun | .putGlobal name value => some (name, value) | _ => none⟩,
  ⟨_, pair var (pair helper (list operand)), fun (r, helper, args) => .helperCall r helper args,
    fun | .helperCall r helper args => some (r, helper, args) | _ => none⟩,
  ⟨_, var, .loadImplicitClosure, fun | .loadImplicitClosure r => some r | _ => none⟩,
  ⟨_, pair var parameter, fun (r, parameter) => .receive r parameter,
    fun | .receive r parameter => some (r, parameter) | _ => none⟩,
  ⟨_, label, .regionStart, fun | .regionStart l => some l | _ => none⟩,
  single .regionEnd,
  ⟨_, var, .receiveException, fun | .receiveException r => some r | _ => none⟩,
  ⟨_, operand, .raise, fun | .raise value => some value | _ => none⟩,
  single .threadPoll,
  ⟨_, bool, .checkLocalJump, fun | .checkLocalJump b => some b | _ => none⟩,
  ⟨_, operand, .ret, fun | .ret value => some value | _ => none⟩,
  ⟨_, pair operand (option symbol), fun (value, method) => .nonlocalReturn value method,
    fun | .nonlocalReturn value method => some (value, method) | _ => none⟩,
  ⟨_, pair operand scopeId, fun (value, scope) => .breakOut value scope,
    fun | .breakOut value scope => some (value, scope) | _ => none⟩]

end ScopeIR.File
