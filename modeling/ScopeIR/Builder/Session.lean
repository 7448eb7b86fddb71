import ScopeIR.Builder.Basic
import ScopeIR.Registry

/-! A builder at work: it shares the registry with the builders of the scopes around it, which rest
until it is done. -/

namespace ScopeIR

structure Session where
  registry : Registry
  builder : Builder
  /-- Builders of the enclosing scopes under construction, innermost first. -/
  outer : List Builder

/-- Building with bodies in the monad `m`. A fault keeps what was done before it. -/
abbrev BuildT (m : Type → Type) := ExceptT Fault (StateT Session m)

/-- Building without bodies. -/
abbrev SessionM := BuildT Id

instance (priority := low) : MonadLift RegistryM SessionM where
  monadLift x := ExceptT.mk fun s =>
    match x s.registry with
    | .ok (a, registry) => (.ok a, { s with registry })
    | .error e => (.error e, s)

instance (priority := low) {m : Type → Type} [Monad m] : MonadLift SessionM (BuildT m) where
  monadLift x := ExceptT.mk fun s => pure (x s)

namespace Session

def current : SessionM Builder := return (← get).builder

def updateBuilder (f : Builder → Builder) : SessionM Unit :=
  modify fun s => { s with builder := f s.builder }

/-- The scope being built. -/
def ownScope : SessionM Scope := do RegistryM.scope (← current).scope

/-- A new builder of an existing scope. -/
def openBuilder (id : ScopeId) (borrowsTemps : Bool) (coverage : Coverage) :
    RegistryM Builder := do
  let s ← RegistryM.scope id
  RegistryM.record (.builderOpened id)
  return { scope := id, borrowsTemps, flags := s.kind.initialFlags, coverage }

/-- A builder of a root scope takes its coverage from the settings. -/
def openRoot (id : ScopeId) : RegistryM Builder := do
  openBuilder id false (← get).config.coverage

def noteLine (line : Int32) : SessionM Unit :=
  updateBuilder fun b => { b with line := b.line.note line }

def insertFlags (flags : ScopeFlags) : SessionM Unit := updateBuilder (·.insertFlags flags)

/-- Adds to the end of the scope's own list. -/
def append (i : Instr) : SessionM Unit := do
  let b ← current
  RegistryM.record (.instrAdded b.scope b.instrs.size i)
  updateBuilder (·.append i)

/-- Adds to the front of the scope's own list. -/
def prepend (i : Instr) : SessionM Unit := do
  let b ← current
  RegistryM.record (.instrAdded b.scope 0 i)
  updateBuilder (·.prepend i)

def temp : SessionM Variable := do
  let s ← get
  let owner := (s.builder.tempOwner s.outer).scope
  let index ← RegistryM.nextTemp owner
  let scope ← RegistryM.scope owner
  return .temp <| match scope.kind, scope.closureId with
    | .closure, some c => .ofClosure c index
    | _, _ => .plain index

def newLabelNamed (stem : String) : SessionM Label := do
  RegistryM.newLabel (← current).scope stem

def newLabel : SessionM Label := newLabelNamed "LBL"

/-- The variable for the module of this scope's frame; there is one. -/
def currentModuleVar : SessionM Variable := do
  let b ← current
  match b.currentModule with
  | some v => return v
  | none =>
    let v : Variable := .temp (.currentModule (← RegistryM.nextTemp b.scope))
    updateBuilder fun b => { b with currentModule := some v }
    return v

/-- The variable for the block passed to this scope; asking for it makes the scope load it. -/
def yieldClosureVar : SessionM Variable := do
  updateBuilder fun b => { b with needsYieldBlock := true }
  match (← current).yieldClosure with
  | some v => return v
  | none =>
    let v ← temp
    updateBuilder fun b => { b with yieldClosure := some v }
    return v

/-- Writes a pending line number, with its trace instruction if every line is traced. -/
def flushLine : SessionM Unit := do
  let b ← current
  match b.line.pending with
  | none => return
  | some line =>
    updateBuilder fun b => { b with line := { b.line with pending := none } }
    append (.lineNumber line b.coverage)
    if (← get).registry.config.fullTrace then
      let module ← currentModuleVar
      let method ← (← get).registry.nearestMethod b.scope
      let file := (← ownScope).file
      let line ← orOverflow (nextLine line)
      append (.tracePoint ⟨.line, module, method.map (·.name), file, line⟩)

/-- While an ensure body is built, instructions go to its buffer and lines stay pending. -/
def emit (i : Instr) : SessionM Unit := do
  match (← current).ensureBodies with
  | frame :: frames =>
    let frame := { frame with instrs := frame.instrs ++ [i] }
    updateBuilder fun b => { b with ensureBodies := frame :: frames }
  | [] =>
    flushLine
    append i

def emitAtBeginning (i : Instr) : SessionM Unit := do
  match (← current).ensureBodies with
  | frame :: frames =>
    let frame := { frame with instrs := i :: frame.instrs }
    updateBuilder fun b => { b with ensureBodies := frame :: frames }
  | [] => prepend i

def emitResult (i : Instr) : SessionM Variable := do
  match i.result? with
  | none => throw (.error (.noResult i))
  | some v =>
    emit i
    return v

def jump (target : Label) : SessionM Unit := emit (.jump target)

def addClosure (closure : ScopeId) : SessionM Unit := do
  RegistryM.addClosure (← current).scope closure

/-- The place of an error: the line after the last one noted, counted from zero. -/
def place : SessionM Location := do
  let file := (← ownScope).file
  return ⟨file, ← orOverflow (nextLine (← current).line.last)⟩

/-- Completes the scope: it loads its block first if it yields, then its flags are final. -/
def finish : SessionM ScopeId := do
  let b ← current
  let scope ← ownScope
  if scope.isFinished then throw (.error (.alreadyFinished b.scope))
  if b.isInEnsureBody then throw (.error (.insideEnsureBody b.scope))
  if b.needsYieldBlock then emitAtBeginning (.loadImplicitClosure (← yieldClosureVar))
  insertFlags scope.flags
  let b ← current
  let closures ← (← ownScope).closures.mapM fun id => RegistryM.scope id
  let flags := b.finalFlags closures
  RegistryM.record (.scopeFinished b.scope b.instrs.size flags)
  RegistryM.store b.scope b.instrs.toList flags
  return b.scope

end Session

namespace BuildT

variable {m : Type → Type} [Monad m] {α : Type}

/-- The outcome of `x`, whose errors do not stop what follows; other faults do. -/
def attempt (x : BuildT m α) : BuildT m (Except BuildError α) := ExceptT.mk do
  match ← x.run with
  | .ok a => return .ok (.ok a)
  | .error (.error e) => return .ok (.error e)
  | .error fault => return .error fault

/-- Passes an outcome on. -/
def settle (outcome : Except BuildError α) : BuildT m α :=
  match outcome with
  | .ok a => return a
  | .error e => throw (.error e)

/-- Runs `body` on a builder nested in the current one, which rests unchanged meanwhile. -/
def within (child : Builder) (body : BuildT m α) : BuildT m α := ExceptT.mk fun s => do
  let (outcome, t) ← body { s with builder := child, outer := s.builder :: s.outer }
  return (outcome, { t with builder := s.builder, outer := s.outer })

end BuildT

end ScopeIR
