import ScopeIR.Instr.Basic
import ScopeIR.Operand.Text

/-! How instructions are written in listings. -/

namespace ScopeIR

def BranchOp.text : BranchOp → String
  | .isTrue => "b_true"
  | .isFalse => "b_false"
  | .isNil => "b_nil"
  | .isUndefined => "b_undef"
  | .notEqual => "bne"

def CallType.text : CallType → String
  | .normal => "NORMAL"
  | .functional => "FUNCTIONAL"

def TraceEvent.text : TraceEvent → String
  | .line => "Line"

def Helper.text : Helper → String
  | .isHashEmpty => "is_hash_empty"

/-- The block is written only if one is passed, the result only if one is kept. -/
def Call.text (c : Call) : String :=
  let result := match c.result with
    | some r => s!"{r.text} = "
    | none => ""
  let block := if c.block = .nullBlock then "" else s!", &{c.block.text}"
  s!"{result}call({c.type.text}, {c.name.listed}, {c.receiver.text}, " ++
    s!"[{Operand.listText c.args}]{block})"

def ZSuper.text (z : ZSuper) : String :=
  s!"{z.result.text} = zsuper({z.receiver.text}, [{Operand.listText z.args}], " ++
    s!"&{z.block.text}, flags: {z.flags.text})"

def TracePoint.text (t : TracePoint) : String :=
  let method := match t.method with
    | some m => m.listed
    | none => "-"
  s!"trace({t.event.text}, {t.module.text}, {method}, {t.file}:{t.line})"

/-- What stands to the right of the variable that receives the argument. -/
def Parameter.text : Parameter → String
  | .preRequired i => s!"recv_pre_reqd_arg({i})"
  | .optional i => s!"recv_opt_arg({i})"
  | .postRequired i => s!"recv_post_reqd_arg({i})"
  | .rest => "recv_rest_arg"
  | .keyword key => s!"recv_kw_arg({key.listed})"
  | .keywordRest => "recv_kw_rest_arg"

def Instr.text : Instr → String
  | .label l => s!"{l.text}:"
  | .jump l => s!"jump {l.text}"
  | .nop => "nop"
  | .branch op target value none => s!"{op.text}({value.text}, {target.text})"
  | .branch op target value (some test) =>
    s!"{op.text}({value.text}, {test.text}, {target.text})"
  | .lineNumber line coverage =>
    if coverage = ∅ then s!"line_num({line})"
    else s!"line_num({line}, coverage: {coverage.text})"
  | .tracePoint t => t.text
  | .copy r value => s!"{r.text} = copy({value.text})"
  | .call c => c.text
  | .zsuper z => z.text
  | .aliasMethod new old => s!"alias({new.text}, {old.text})"
  | .searchConst r start name publicOnly =>
    s!"{r.text} = search_const({name.listed}, {start.text}, no_priv: {boolText publicOnly})"
  | .searchModuleConst r module name publicOnly =>
    s!"{r.text} = search_module_for_const({module.text}, {name.listed}, " ++
      s!"no_priv: {boolText publicOnly})"
  | .classVarModule r start none => s!"{r.text} = class_var_module({start.text})"
  | .classVarModule r start (some object) =>
    s!"{r.text} = class_var_module({start.text}, {object.text})"
  | .getClassVar r container name => s!"{r.text} = get_cvar({container.text}, {name.listed})"
  | .putClassVar container name value =>
    s!"put_cvar({container.text}, {name.listed}, {value.text})"
  | .getGlobal r name => s!"{r.text} = get_global({name.listed})"
  | .putGlobal name value => s!"put_global({name.listed}, {value.text})"
  | .helperCall r helper args => s!"{r.text} = {helper.text}({Operand.listText args})"
  | .loadImplicitClosure r => s!"{r.text} = load_implicit_closure"
  | .receive r parameter => s!"{r.text} = {parameter.text}"
  | .regionStart rescuer => s!"exc_region_start({rescuer.text})"
  | .regionEnd => "exc_region_end"
  | .receiveException r => s!"{r.text} = recv_exception"
  | .raise value => s!"throw({value.text})"
  | .threadPoll => "thread_poll"
  | .checkLocalJump maybeLambda => s!"check_for_lje(maybe_lambda: {boolText maybeLambda})"
  | .ret value => s!"return({value.text})"
  | .nonlocalReturn value none => s!"nonlocal_return({value.text})"
  | .nonlocalReturn value (some method) => s!"nonlocal_return({value.text}, {method.listed})"
  | .breakOut value scope => s!"break({value.text}, scope: {scope.text})"

end ScopeIR
