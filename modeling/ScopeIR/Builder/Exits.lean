import ScopeIR.Builder.Branching
import ScopeIR.Builder.Calls
import ScopeIR.Builder.Ensure

/-! Loops, and the jumps that leave them, their bodies, rescues and scopes. -/

namespace ScopeIR.Session

def pushLoop : SessionM LoopFrame := do
  let id : LoopId := ⟨(← current).nextLoop⟩
  updateBuilder fun b => { b with nextLoop := b.nextLoop + 1 }
  let loopStart ← newLabelNamed "_LOOP_BEGIN"
  let loopEnd ← newLabelNamed "_LOOP_END"
  let iterStart ← newLabelNamed "_ITER_BEGIN"
  let iterEnd ← newLabelNamed "_ITER_END"
  let result ← temp
  let frame : LoopFrame := { id, loopStart, loopEnd, iterStart, iterEnd, result }
  insertFlags {.hasLoops}
  updateBuilder fun b => { b with loops := frame :: b.loops }
  return frame

def popLoop : SessionM (Option LoopFrame) := do
  let frames := (← current).loops
  updateBuilder fun b => { b with loops := frames.tail }
  return frames.head?

def invalid {α : Type} (exit : Exit) : SessionM α := do
  throw (.error (.invalidExit exit (← place)))

def escaping {α : Type} (exit : Exit) : SessionM α := do
  throw (.error (.exitFromEval exit (← place)))

/-- Leaves the innermost loop with `value`, or else the call that the block was passed to. -/
def breakWith (value : Operand) : SessionM Unit := do
  match (← current).currentLoop with
  | some loop =>
    copyEnsures (some loop.id)
    emit (.copy loop.result value)
    jump loop.loopEnd
  | none =>
    let scope ← ownScope
    match scope.kind.isClosure, scope.parent with
    | true, some parent => emit (.breakOut value parent)
    | _, _ => if scope.kind.isClosureLike then escaping .break else invalid .break

/-- The label that opens the body of a closure. -/
def newClosureStart : SessionM Label := do
  let label : Label := ⟨s!"{(← current).scope.index}_START", 0⟩
  updateBuilder fun b => { b with closureStart := some label }
  return label

def placeClosureStart : SessionM Unit := do
  emit (.label (← newClosureStart))

/-- A builder that was not opened with this label gets it in front on first use. -/
def closureStart : SessionM Label := do
  match (← current).closureStart with
  | some label => return label
  | none =>
    let label ← newClosureStart
    prepend (.label label)
    return label

/-- Starts the current iteration, or the block, again. -/
def redo : SessionM Unit := do
  match (← current).currentLoop with
  | some loop => jump loop.iterStart
  | none =>
    let scope ← ownScope
    if scope.kind.isClosure then
      emit .threadPoll
      jump (← closureStart)
    else if scope.kind = .evalScript then escaping .redo
    else invalid .redo

/-- Runs the rescued body again. That makes a loop. -/
def retry : SessionM Unit := do
  match (← current).rescues with
  | [] => invalid .retry
  | frame :: _ =>
    emit .threadPoll
    emit (.putGlobal BuildT.currentException frame.savedException)
    jump frame.entry
    insertFlags {.hasLoops}

/-- Returns `value` from the method: at once from its own scope, by a transfer from a closure, and
not at all from a module body outside of every method. -/
def returnWith (value : Operand) : SessionM Unit := do
  let scope ← ownScope
  let method := (← (← get).registry.nearestMethod scope.id).map (·.name)
  if scope.kind.isClosureLike then
    emit (.checkLocalJump method.isNone)
    emit (.nonlocalReturn value method)
  else if scope.kind.isModuleBody then
    match method with
    | some name => emit (.nonlocalReturn value (some name))
    | none => let _ ← raiseError ⟨"LocalJumpError"⟩ (.ofString "unexpected return")
  else if (← current).ensures.isEmpty then emit (.ret value)
  else
    let result ← temp
    emit (.copy result value)
    copyEnsures none
    emit (.ret result)

end ScopeIR.Session

namespace ScopeIR.BuildT

open Session

variable {m : Type → Type} [Monad m]

/-- Ends the current iteration, or the block with `value`. Cleanup code is copied before it is known
whether the jump is legal. -/
def next (value : Operand) : BuildT m Unit := do
  let loop? := (← current).currentLoop
  copyEnsures (loop?.map (·.id))
  match loop? with
  | some loop => jump loop.iterEnd
  | none =>
    emit .threadPoll
    let scope ← ownScope
    if scope.kind.isClosure then emit (.ret value)
    else if scope.kind = .evalScript then escaping .next
    else invalid .next

/-- Repeats `body` while the condition's truth is `goOn`, which is tested before each iteration or
after it. -/
def loop (condition : BuildT m Operand) (body : BuildT m Unit) (goOn testFirst : Bool) :
    BuildT m Operand := do
  let frame ← pushLoop
  let setResult ← newLabel
  emit (.label frame.loopStart)
  if testFirst then cond setResult (← condition) (.boolean !goOn)
  emit (.label frame.iterStart)
  emit .threadPoll
  body
  emit (.label frame.iterEnd)
  if testFirst then jump frame.loopStart
  else cond frame.iterStart (← condition) (.boolean goOn)
  emit (.label setResult)
  emit (.copy frame.result .nil)
  emit (.label frame.loopEnd)
  let _ ← popLoop
  return frame.result

end ScopeIR.BuildT
