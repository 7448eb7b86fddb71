import ScopeIR.Scope

/-! What happened while scopes were built, in order. Instruction listeners and the log are two views
of it. -/

namespace ScopeIR

inductive Event where
  | scopeCreated (scope : Scope)
  | builderOpened (scope : ScopeId)
  /-- The instruction now stands at this index of the scope's own list. -/
  | instrAdded (scope : ScopeId) (index : Nat) (instr : Instr)
  | ensureCopied (start : Label) (size : Nat) (scope : ScopeId)
  | superForwarded (scope : ScopeId) (depth positional keyword : Nat)
  | scopeFinished (scope : ScopeId) (size : Nat) (flags : ScopeFlags)

/-- An instruction that joined a scope's own list, and where. -/
structure Notice where
  scope : ScopeId
  instr : Instr
  index : Nat
  deriving DecidableEq

def Event.notice? : Event → Option Notice
  | .instrAdded scope index instr => some ⟨scope, instr, index⟩
  | _ => none

abbrev Journal := Array Event

/-- What a listener hears. -/
def Journal.notices (j : Journal) : List Notice := j.toList.filterMap Event.notice?

end ScopeIR
