import ScopeIR.Flags.Basic

/-! What is known about a scope: which transfers leave it, which reach it, and what it needs when it
runs. -/

namespace ScopeIR

inductive ScopeFlag where
  | hasBreakInstrs
  | hasNonlocalReturns
  | canReceiveBreaks
  | canReceiveNonlocalReturns
  | canCaptureCallersBinding
  | bindingHasEscaped
  | usesEval
  | usesSuper
  | usesZSuper
  | requiresFrame
  | requiresDynscope
  | hasLoops
  | receivesKeywordArgs
  | flagsComputed
  deriving DecidableEq

namespace ScopeFlag

def name : ScopeFlag → String
  | .hasBreakInstrs => "HAS_BREAK_INSTRS"
  | .hasNonlocalReturns => "HAS_NONLOCAL_RETURNS"
  | .canReceiveBreaks => "CAN_RECEIVE_BREAKS"
  | .canReceiveNonlocalReturns => "CAN_RECEIVE_NONLOCAL_RETURNS"
  | .canCaptureCallersBinding => "CAN_CAPTURE_CALLERS_BINDING"
  | .bindingHasEscaped => "BINDING_HAS_ESCAPED"
  | .usesEval => "USES_EVAL"
  | .usesSuper => "USES_SUPER"
  | .usesZSuper => "USES_ZSUPER"
  | .requiresFrame => "REQUIRES_FRAME"
  | .requiresDynscope => "REQUIRES_DYNSCOPE"
  | .hasLoops => "HAS_LOOPS"
  | .receivesKeywordArgs => "RECEIVES_KEYWORD_ARGS"
  | .flagsComputed => "FLAGS_COMPUTED"

def all : List ScopeFlag :=
  [.hasBreakInstrs, .hasNonlocalReturns, .canReceiveBreaks, .canReceiveNonlocalReturns,
    .canCaptureCallersBinding, .bindingHasEscaped, .usesEval, .usesSuper, .usesZSuper,
    .requiresFrame, .requiresDynscope, .hasLoops, .receivesKeywordArgs, .flagsComputed]

instance : Flag ScopeFlag where
  width := 32
  members := all
  position := ScopeFlag.ctorIdx
  name := name

end ScopeFlag

abbrev ScopeFlags := FlagSet ScopeFlag

/-- The flags each of which makes a scope keep its variables in a dynamic scope. -/
def ScopeFlag.dynscopeCauses : List ScopeFlag :=
  [.hasNonlocalReturns, .canCaptureCallersBinding, .canReceiveNonlocalReturns, .bindingHasEscaped]

def FlagSet.needsDynscope (s : ScopeFlags) : Bool := ScopeFlag.dynscopeCauses.any s.contains

theorem ScopeFlag.position_injective (f g : ScopeFlag) (h : Flag.position f = Flag.position g) :
    f = g := by
  cases f <;> cases g <;> first | rfl | cases h

/-- A set with one flag contains no other one. -/
theorem FlagSet.contains_singleton (f g : ScopeFlag) :
    ({f} : ScopeFlags).contains g ↔ f = g := by
  have hwidth : Flag.position f < Flag.width ScopeFlag := by cases f <;> decide
  have hbits : ({f} : ScopeFlags).bits = BitVec.twoPow _ (Flag.position f) := rfl
  rw [FlagSet.contains, hbits, BitVec.getLsbD_twoPow, Bool.and_eq_true, decide_eq_true_iff,
    decide_eq_true_iff]
  constructor
  · intro h
    exact ScopeFlag.position_injective f g h.2
  · rintro rfl
    exact ⟨hwidth, rfl⟩

theorem FlagSet.contains_insert (f g : ScopeFlag) (s : ScopeFlags) :
    (insert f s).contains g ↔ f = g ∨ s.contains g := by
  have hinsert : insert f s = {f} ∪ s := rfl
  rw [hinsert, contains_union, Bool.or_eq_true, contains_singleton]

end ScopeIR
