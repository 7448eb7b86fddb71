import ScopeIR.Instr.Basic

/-! Branches on a comparison, folded where the outcome is known when the code is built. -/

namespace ScopeIR

/-- Goes to `target` when `value` matches `test`. Only the booleans, nil and undefined are tests. -/
def Instr.branchIf? (value test : Operand) (target : Label) : Option Instr :=
  match test with
  | .boolean true =>
    some (if value.isTruthy then .jump target
      else if value.isFalsey then .nop
      else .branch .isTrue target value none)
  | .boolean false =>
    some (if value.isTruthy then .nop
      else if value.isFalsey then .jump target
      else .branch .isFalse target value none)
  | .nil =>
    some (if value = .nil then .jump target
      else if value.isTruthy then .nop
      else .branch .isNil target value none)
  | .undefined =>
    some (if value = .undefined then .jump target else .branch .isUndefined target value none)
  | _ => none

/-- Goes to `target` when `value` differs from `test`; against a boolean it is a test of truth. -/
def Instr.branchUnlessEqual (target : Label) (value test : Operand) : Instr :=
  match test with
  | .boolean false => .branch .isTrue target value none
  | .boolean true => .branch .isFalse target value none
  | test => .branch .notEqual target value (some test)

end ScopeIR
