import ScopeIR.Builder.ClassVars
import ScopeIR.Proofs.Running

/-! A workshop: all scopes and all builders that are at work on them at one time. Its runs are
sequences of single operations of any of these builders, in any order. -/

namespace ScopeIR

/-- One operation of a builder that takes no body, with all that it is given. -/
inductive Act where
  | note (line : Int32)
  | emit (i : Instr)
  | emitAtBeginning (i : Instr)
  | emitResult (i : Instr)
  | temp
  | newLabel (stem : String)
  | currentModuleVar
  | yieldClosureVar
  | setCoverage (coverage : Coverage)
  | setMethodName (name : Option Symbol)
  | setEvalType (type : Option EvalType)
  | cond (target : Label) (value test : Operand)
  | condNe (target : Label) (value test : Operand)
  | pushRescue (frame : RescueFrame)
  | popRescue
  | pushRescuer (label : Label)
  | popRescuer
  | pushLoop
  | popLoop
  | newEnsure
  | pushEnsure (frame : EnsureFrame)
  | popEnsure
  | enterEnsureBody (frame : EnsureFrame)
  | exitEnsureBody
  | copyEnsure (frame : EnsureFrame)
  | copyEnsures (loop : Option LoopId)
  | emitEnsureBody (frame : EnsureFrame)
  | break (value : Operand)
  | next (value : Operand)
  | redo
  | retry
  | return (value : Operand)
  | renameMethod (newName oldName : Operand)
  | searchConst (name : Symbol)
  | searchModuleConst (module : Operand) (name : Symbol)
  | call (result : Variable) (type : CallType) (receiver : Operand) (name : Symbol)
    (args : List Operand) (block : Operand) (flags : CallFlags)
  | raiseError (className : Symbol) (message : Operand)
  | classVarContainer (declares : Bool)
  | getClassVar (name : Symbol)
  | putClassVar (declares : Bool) (name : Symbol) (value : Operand)
  | zsuper (block : Operand)
  /-- Opens the body of a block. -/
  | placeClosureStart

namespace Act

open Session

def run : Act → SessionM Unit
  | note line => noteLine line
  | emit i => Session.emit i
  | emitAtBeginning i => Session.emitAtBeginning i
  | emitResult i => do let _ ← Session.emitResult i
  | temp => do let _ ← Session.temp
  | newLabel stem => do let _ ← newLabelNamed stem
  | currentModuleVar => do let _ ← Session.currentModuleVar
  | yieldClosureVar => do let _ ← Session.yieldClosureVar
  | setCoverage coverage => updateBuilder fun b => { b with coverage }
  | setMethodName methodName => updateBuilder fun b => { b with methodName }
  | setEvalType evalType => updateBuilder fun b => { b with evalType }
  | cond target value test => Session.cond target value test
  | condNe target value test => Session.condNe target value test
  | pushRescue frame => Session.pushRescue frame
  | popRescue => do let _ ← Session.popRescue
  | pushRescuer label => Session.pushRescuer label
  | popRescuer => do let _ ← Session.popRescuer
  | pushLoop => do let _ ← Session.pushLoop
  | popLoop => do let _ ← Session.popLoop
  | newEnsure => do let _ ← Session.newEnsure
  | pushEnsure frame => Session.pushEnsure frame
  | popEnsure => do let _ ← Session.popEnsure
  | enterEnsureBody frame => Session.enterEnsureBody frame
  | exitEnsureBody => do let _ ← Session.exitEnsureBody
  | copyEnsure frame => Session.copyEnsure frame
  | copyEnsures loop => Session.copyEnsures loop
  | emitEnsureBody frame => Session.emitEnsureBody frame
  | .break value => breakWith value
  | next value => BuildT.next value
  | redo => Session.redo
  | retry => Session.retry
  | .return value => returnWith value
  | renameMethod newName oldName => do let _ ← Session.renameMethod newName oldName
  | searchConst name => do let _ ← Session.searchConst name
  | searchModuleConst module name => do let _ ← Session.searchModuleConst module name
  | call result type receiver name args block flags => do
    let _ ← Session.call result type receiver name args block flags
  | raiseError className message => do let _ ← Session.raiseError className message
  | classVarContainer declares => do let _ ← Session.classVarContainer declares
  | getClassVar name => do let _ ← Session.getClassVar name
  | putClassVar declares name value => do let _ ← Session.putClassVar declares name value
  | zsuper block => do let _ ← BuildT.zsuper block
  | placeClosureStart => Session.placeClosureStart

/-- The operation is a super call that finds no method whose arguments it could forward. -/
def refuses (s : Session) : Act → Bool
  | zsuper _ =>
    match (forwardedArgs? s).1 with
    | .ok none => true
    | _ => false
  | _ => false

end Act

/-- A builder at work. -/
structure Worker where
  builder : Builder
  /-- The places of the builders it was opened inside of, innermost first. -/
  outer : List Nat
  /-- A super call of this builder found no method. -/
  refused : Bool

/-- A worker's place is its number; it stays empty once the worker is done. -/
structure Workshop where
  registry : Registry
  workers : List (Option Worker) := []
  /-- The scopes that were finished by a builder a super call of which found no method. -/
  refusing : List ScopeId := []

inductive Op where
  | newScope (kind : ScopeKind) (name : Symbol) (file : String) (line : Int32)
    (parent : Option ScopeId)
  | newLabel (scope : ScopeId) (stem : String)
  | nextTemp (scope : ScopeId)
  | setRefined (scope : ScopeId) (refined : Bool)
  /-- Opens a builder without builders around it. -/
  | openRoot (scope : ScopeId)
  /-- Opens a builder inside the one at the place. -/
  | openInside (place : Nat) (scope : ScopeId) (borrowsTemps : Bool)
  | act (place : Nat) (act : Act)
  | finish (place : Nat)
  | drop (place : Nat)

/-- The scope that a new one is added to. -/
def Op.parent? : Op → Option ScopeId
  | newScope _ _ _ _ parent => parent
  | _ => none

namespace Workshop

variable {α : Type}

def worker? (w : Workshop) (place : Nat) : Option Worker := (w.workers[place]?).join

/-- The worker's session, in which the builders around it rest. -/
def session (w : Workshop) (worker : Worker) : Session where
  registry := w.registry
  builder := worker.builder
  outer := worker.outer.filterMap fun place => (w.worker? place).map (·.builder)

def setWorker (w : Workshop) (place : Nat) (worker : Option Worker) : Workshop :=
  { w with workers := w.workers.set place worker }

def addWorker (w : Workshop) (worker : Worker) : Workshop :=
  { w with workers := w.workers ++ [some worker] }

/-- What building leaves behind if it can go on: an error can be caught, other faults end it. -/
def settled (x : SessionM α) (s : Session) : Option (Option α × Session) :=
  match x s with
  | (.ok a, t) => some (some a, t)
  | (.error (.error _), t) => some (none, t)
  | _ => none

def change (w : Workshop) (x : RegistryM α) : Option (α × Workshop) :=
  match x w.registry with
  | .ok (a, registry) => some (a, { w with registry })
  | .error _ => none

/-- One operation. There is no step where it cannot be done, or where it ends all building. -/
def step (w : Workshop) : Op → Option Workshop
  | .newScope kind name file line parent =>
    (w.change (RegistryM.newScope kind name file line parent)).map (·.2)
  | .newLabel scope stem => (w.change (RegistryM.newLabel scope stem)).map (·.2)
  | .nextTemp scope => (w.change (RegistryM.nextTemp scope)).map (·.2)
  | .setRefined scope refined => (w.change (RegistryM.setRefined scope refined)).map (·.2)
  | .openRoot scope => do
    let (builder, w) ← w.change (Session.openRoot scope)
    return w.addWorker ⟨builder, [], false⟩
  | .openInside place scope borrowsTemps => do
    let around ← w.worker? place
    let (builder, w) ←
      w.change (Session.openBuilder scope borrowsTemps around.builder.coverage)
    return w.addWorker ⟨builder, place :: around.outer, false⟩
  | .act place act => do
    let worker ← w.worker? place
    let s := w.session worker
    let (_, t) ← settled act.run s
    let refused := worker.refused || act.refuses s
    return { w.setWorker place (some { worker with builder := t.builder, refused }) with
      registry := t.registry }
  | .finish place => do
    let worker ← w.worker? place
    let (id?, t) ← settled Session.finish (w.session worker)
    let refusing := if worker.refused then id?.toList else []
    return { w.setWorker place none with
      registry := t.registry
      refusing := refusing ++ w.refusing }
  | .drop place => do
    let _ ← w.worker? place
    return w.setWorker place none

def run (w : Workshop) (ops : List Op) : Option Workshop := ops.foldlM step w

/-- No scope is there yet. -/
def empty (config : Config) : Workshop where
  registry := { config }

end Workshop

end ScopeIR
