import ScopeIR.Instr.Basic

/-! Copies of instructions under a renaming of labels and variables. What the renaming does not
mention keeps its name. -/

namespace ScopeIR

structure Renaming where
  labels : List (Label × Label)
  vars : List (Variable × Variable)

namespace Renaming

instance : EmptyCollection Renaming := ⟨⟨[], []⟩⟩

/-- A later image of the same label takes the place of an earlier one. -/
def insertLabel (ρ : Renaming) (old new : Label) : Renaming :=
  { ρ with labels := (old, new) :: ρ.labels }

/-- A later image of the same variable takes the place of an earlier one. -/
def insertVar (ρ : Renaming) (old new : Variable) : Renaming :=
  { ρ with vars := (old, new) :: ρ.vars }

def hasVar (ρ : Renaming) (v : Variable) : Bool := (ρ.vars.lookup v).isSome

def label (ρ : Renaming) (l : Label) : Label := (ρ.labels.lookup l).getD l

def var (ρ : Renaming) (v : Variable) : Variable := (ρ.vars.lookup v).getD v

def operand (ρ : Renaming) (o : Operand) : Operand := o.mapVars ρ.var

end Renaming

/-- The instruction with each of its labels and variables replaced. -/
def Instr.rename (ρ : Renaming) : Instr → Instr
  | .label l => .label (ρ.label l)
  | .jump l => .jump (ρ.label l)
  | .nop => .nop
  | .branch op target value test =>
    .branch op (ρ.label target) (ρ.operand value) (test.map ρ.operand)
  | .lineNumber line coverage => .lineNumber line coverage
  | .tracePoint t => .tracePoint { t with module := ρ.var t.module }
  | .copy r value => .copy (ρ.var r) (ρ.operand value)
  | .call c =>
    .call { c with
      result := c.result.map ρ.var
      receiver := ρ.operand c.receiver
      args := c.args.map ρ.operand
      block := ρ.operand c.block }
  | .zsuper z =>
    .zsuper { z with
      result := ρ.var z.result
      receiver := ρ.operand z.receiver
      args := z.args.map ρ.operand
      block := ρ.operand z.block }
  | .aliasMethod new old => .aliasMethod (ρ.operand new) (ρ.operand old)
  | .searchConst r start name publicOnly =>
    .searchConst (ρ.var r) (ρ.operand start) name publicOnly
  | .searchModuleConst r module name publicOnly =>
    .searchModuleConst (ρ.var r) (ρ.operand module) name publicOnly
  | .classVarModule r start object =>
    .classVarModule (ρ.var r) (ρ.operand start) (object.map ρ.operand)
  | .getClassVar r container name => .getClassVar (ρ.var r) (ρ.operand container) name
  | .putClassVar container name value => .putClassVar (ρ.operand container) name (ρ.operand value)
  | .getGlobal r name => .getGlobal (ρ.var r) name
  | .putGlobal name value => .putGlobal name (ρ.operand value)
  | .helperCall r helper args => .helperCall (ρ.var r) helper (args.map ρ.operand)
  | .loadImplicitClosure r => .loadImplicitClosure (ρ.var r)
  | .receive r parameter => .receive (ρ.var r) parameter
  | .regionStart rescuer => .regionStart (ρ.label rescuer)
  | .regionEnd => .regionEnd
  | .receiveException r => .receiveException (ρ.var r)
  | .raise value => .raise (ρ.operand value)
  | .threadPoll => .threadPoll
  | .checkLocalJump maybeLambda => .checkLocalJump maybeLambda
  | .ret value => .ret (ρ.operand value)
  | .nonlocalReturn value method => .nonlocalReturn (ρ.operand value) method
  | .breakOut value scope => .breakOut (ρ.operand value) scope

end ScopeIR
