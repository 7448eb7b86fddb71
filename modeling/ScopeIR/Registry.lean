import ScopeIR.Checked
import ScopeIR.Config
import ScopeIR.Fault
import ScopeIR.Journal

/-! All scopes of one compilation, with the counters that their builders share. -/

namespace ScopeIR

structure Registry where
  config : Config
  scopes : Array Scope := #[]
  nextClosureId : UInt64 := 0
  journal : Journal := #[]

/-- Changes of the registry. A fault leaves it as it was. -/
abbrev RegistryM := StateT Registry (Except Fault)

namespace Registry

def scope (r : Registry) (id : ScopeId) : Except Fault Scope :=
  match r.scopes[id.index.toNat]? with
  | some s => .ok s
  | none => .error (.noScope id)

def setScope (r : Registry) (id : ScopeId) (s : Scope) : Registry :=
  { r with scopes := r.scopes.setIfInBounds id.index.toNat s }

/-- The scope and those around it, innermost first. A parent is always older than its child. -/
def lexicalChain (r : Registry) (id : ScopeId) : Except Fault (List Scope) := do
  let s ← r.scope id
  match s.parent with
  | none => return [s]
  | some p =>
    if p.index < id.index then return s :: (← r.lexicalChain p) else return [s]
termination_by id.index.toNat

def nearestMethod (r : Registry) (id : ScopeId) : Except Fault (Option Scope) := do
  return (← r.lexicalChain id).find? (·.kind = .method)

/-- The first scope outwards that owns its frame. -/
def nearestFrame (r : Registry) (id : ScopeId) : Except Fault ScopeId := do
  return match (← r.lexicalChain id).find? (!·.kind.isClosureLike) with
    | some s => s.id
    | none => id

end Registry

namespace RegistryM

def scope (id : ScopeId) : RegistryM Scope := do (← get).scope id

def updateScope (id : ScopeId) (f : Scope → Scope) : RegistryM Unit := do
  let s ← scope id
  modify (·.setScope id (f s))

def record (e : Event) : RegistryM Unit := modify fun r => { r with journal := r.journal.push e }

/-- Takes the next closure id if a scope of this kind carries one. -/
def takeClosureId (kind : ScopeKind) : RegistryM (Option UInt64) := do
  if kind.isClosureLike then
    let c := (← get).nextClosureId
    let next ← orOverflow (checkedAdd c 1)
    modify fun r => { r with nextClosureId := next }
    return some c
  else return none

/-- Adds a scope. It inherits its parent's use of refinements, and one with a closure id joins the
parent's closures. -/
def newScope (kind : ScopeKind) (name : Symbol) (file : String) (line : Int32)
    (parent : Option ScopeId) : RegistryM ScopeId := do
  let size := (← get).scopes.size
  if UInt64.size ≤ size then throw .overflow
  let id : ScopeId := ⟨size.toUInt64⟩
  let closureId ← takeClosureId kind
  let refined ← match parent with
    | none => pure false
    | some p => do
      if kind.isClosureLike then
        updateScope p fun s => { s with closures := s.closures ++ [id] }
      pure (← scope p).refined
  let s : Scope :=
    { id, kind, name, file, line, parent, closures := [], closureId, refined,
      flags := kind.initialFlags, nextLabel := 0, nextTemp := 0, instrs := none }
  record (.scopeCreated s)
  modify fun r => { r with scopes := r.scopes.push s }
  return id

/-- A label that no other call for this scope returns. -/
def newLabel (id : ScopeId) (stem : String) : RegistryM Label := do
  let s ← scope id
  let next ← orOverflow (checkedAdd s.nextLabel 1)
  updateScope id fun s => { s with nextLabel := next }
  return ⟨stem, s.nextLabel⟩

/-- An index that no other call for this scope returns. -/
def nextTemp (id : ScopeId) : RegistryM UInt64 := do
  let s ← scope id
  let next ← orOverflow (checkedAdd s.nextTemp 1)
  updateScope id fun s => { s with nextTemp := next }
  return s.nextTemp

/-- Flags are open until the scope is finished. -/
def insertFlags (id : ScopeId) (flags : ScopeFlags) : RegistryM Unit := do
  if (← scope id).isFinished then throw (.sealedFlags id)
  updateScope id fun s => { s with flags := s.flags ∪ flags }

def setRefined (id : ScopeId) (refined : Bool) : RegistryM Unit :=
  updateScope id fun s => { s with refined }

def setClosures (id : ScopeId) (closures : List ScopeId) : RegistryM Unit :=
  updateScope id fun s => { s with closures }

/-- Registers `closure` as nested in the scope unless it already is. -/
def addClosure (id closure : ScopeId) : RegistryM Unit :=
  updateScope id fun s =>
    if closure ∈ s.closures then s else { s with closures := s.closures ++ [closure] }

/-- Stores what building the scope produced. -/
def store (id : ScopeId) (instrs : List Instr) (flags : ScopeFlags) : RegistryM Unit :=
  updateScope id fun s => { s with instrs := some instrs, flags }

end RegistryM

end ScopeIR
