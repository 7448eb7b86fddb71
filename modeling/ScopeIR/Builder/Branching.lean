import ScopeIR.Builder.Session
import ScopeIR.Instr.Branch

/-! Control flow built from labels, jumps and branches. Bodies are builder actions. -/

namespace ScopeIR.Session

def branchIf (value test : Operand) (target : Label) : Except Fault Instr :=
  match Instr.branchIf? value test target with
  | some i => .ok i
  | none => .error (.error (.noBranch value test))

/-- Goes to `target` when `value` matches `test`. -/
def cond (target : Label) (value test : Operand) : SessionM Unit := do
  emit (← branchIf value test target)

/-- Goes to `target` when `value` differs from `test`. -/
def condNe (target : Label) (value test : Operand) : SessionM Unit :=
  emit (.branchUnlessEqual target value test)

end ScopeIR.Session

namespace ScopeIR.BuildT

open Session

variable {m : Type → Type} [Monad m] {α : Type}

def condWith (target : Label) (value test : Operand) (body : BuildT m Unit) : BuildT m Unit := do
  cond target value test
  body

def condNeWith (target : Label) (value test : Operand) (body : BuildT m Unit) :
    BuildT m Unit := do
  condNe target value test
  body

/-- Runs `yes` when `value` equals `test` and `no` otherwise; both arms meet at one label. -/
def ifElse (value test : Operand) (yes no : BuildT m Unit) : BuildT m Unit := do
  let elseLabel ← newLabel
  let endLabel ← newLabel
  condNe elseLabel value test
  yes
  jump endLabel
  emit (.label elseLabel)
  no
  emit (.label endLabel)

/-- A new label for `body`, which stands after it. -/
def labelled (stem : String) (body : Label → BuildT m α) : BuildT m α := do
  let label ← newLabelNamed stem
  let value ← body label
  emit (.label label)
  return value

/-- Runs `body` unless `value` matches `test`. -/
def ifNot (value test : Operand) (body : BuildT m Unit) : BuildT m Unit :=
  labelled "if_not_end" fun after => condWith after value test body

/-- `test` goes to the label it is given when the loop is done. The body may also go to the second
label it is given, where `increment` follows. -/
def forLoop (test increment : Label → BuildT m Unit) (body : Label → Label → BuildT m Unit) :
    BuildT m Unit := do
  let top ← newLabelNamed "for_top"
  let bottom ← newLabelNamed "for_bottom"
  labelled "for_end" fun after => do
    emit (.label top)
    test after
    body after bottom
    emit (.label bottom)
    increment after
    jump top

/-- `count` copies of `body`, numbered from `start`. -/
def repeated (body : Nat → BuildT m Unit) (start : Nat) : (count : Nat) → BuildT m Unit
  | 0 => pure ()
  | count + 1 => do
    body start
    repeated body (start + 1) count

/-- Unrolls `body`, which may leave through the label it is given. -/
def times (count : Nat) (body : Label → Nat → BuildT m Unit) : BuildT m Unit :=
  labelled "times_end" fun after => repeated (body after) 0 count

end ScopeIR.BuildT
