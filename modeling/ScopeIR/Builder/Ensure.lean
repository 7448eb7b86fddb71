import ScopeIR.Builder.Session
import ScopeIR.Instr.Renaming

/-! Protected regions: ensure bodies, which are copied to every exit of their region, and rescues. -/

namespace ScopeIR.Session

def pushRescue (frame : RescueFrame) : SessionM Unit :=
  updateBuilder fun b => { b with rescues := frame :: b.rescues }

def popRescue : SessionM (Option RescueFrame) := do
  let frames := (← current).rescues
  updateBuilder fun b => { b with rescues := frames.tail }
  return frames.head?

def pushRescuer (label : Label) : SessionM Unit :=
  updateBuilder fun b => { b with rescuers := label :: b.rescuers }

/-- Below the last rescuer lies only that of unrescued code, which stays. -/
def popRescuer : SessionM (Option Label) := do
  let labels := (← current).rescuers
  updateBuilder fun b => { b with rescuers := labels.tail }
  return labels.head?

/-- The frame of an ensure region that starts here. -/
def newEnsure : SessionM EnsureFrame := do
  let regionStart ← newLabel
  let bodyStart ← newLabel
  let bodyEnd ← newLabel
  let dummyRescue ← newLabel
  let b ← current
  return {
    regionStart, bodyStart, bodyEnd, dummyRescue
    rescuer := b.rescuer
    innermostLoop := b.currentLoop.map (·.id)
    instrs := [] }

def pushEnsure (frame : EnsureFrame) : SessionM Unit :=
  updateBuilder fun b => { b with ensures := frame :: b.ensures }

def popEnsure : SessionM (Option EnsureFrame) := do
  let frames := (← current).ensures
  updateBuilder fun b => { b with ensures := frames.tail }
  return frames.head?

/-- Until the body is left again, instructions go to the frame's buffer. -/
def enterEnsureBody (frame : EnsureFrame) : SessionM Unit :=
  updateBuilder fun b => { b with ensureBodies := frame :: b.ensureBodies }

def exitEnsureBody : SessionM (Option EnsureFrame) := do
  let frames := (← current).ensureBodies
  updateBuilder fun b => { b with ensureBodies := frames.tail }
  return frames.head?

/-- Fresh names for what `i` defines: its label, and its result if that is a temporary which has no
new name yet. -/
def freshen (ρ : Renaming) (i : Instr) : SessionM Renaming := do
  let ρ ← match i with
    | .label l => do pure (ρ.insertLabel l (← newLabel))
    | _ => pure ρ
  match i.result? with
  | some v => if v.isTemp && !ρ.hasVar v then return ρ.insertVar v (← temp) else return ρ
  | none => return ρ

/-- Copies a body to the current position with fresh labels and temporaries. Raises in the copy go
where they would go from the place the ensure was written. -/
def copyEnsure (frame : EnsureFrame) : SessionM Unit := do
  if frame.instrs.isEmpty then return
  let ρ : Renaming := Renaming.insertLabel ∅ frame.bodyStart (← newLabel)
  let ρ ← frame.instrs.foldlM freshen ρ
  RegistryM.record (.ensureCopied frame.bodyStart frame.instrs.length (← current).scope)
  emit (.label (ρ.label frame.bodyStart))
  emit (.regionStart frame.rescuer)
  for i in frame.instrs do
    let i := i.rename ρ
    if let some closure := i.closure? then addClosure closure
    emit i
  emit .regionEnd

/-- Emits a body as it was built, at its own start label. -/
def emitEnsureBody (frame : EnsureFrame) : SessionM Unit := do
  emit (.label frame.bodyStart)
  for i in frame.instrs do emit i

/-- The frames that leaving the loop passes, innermost first; all of them without a loop. -/
def passedEnsures (loop : Option LoopId) (frames : List EnsureFrame) : List EnsureFrame :=
  match loop with
  | none => frames
  | some id => frames.takeWhile (·.innermostLoop = some id)

def copyEnsures (loop : Option LoopId) : SessionM Unit := do
  for frame in passedEnsures loop (← current).ensures do copyEnsure frame

end ScopeIR.Session

namespace ScopeIR.BuildT

open Session

variable {m : Type → Type} [Monad m]

/-- Protects `body` by `ensureBody`, which is built first so that exits in `body` can copy it. -/
def ensure (body ensureBody : BuildT m Operand) : BuildT m Operand := do
  enterEnsureBody (← newEnsure)
  let built ← attempt ensureBody
  let some frame ← exitEnsureBody | throw (.error .noEnsureBody)
  let _ ← settle built
  pushEnsure frame
  emit (.label frame.regionStart)
  emit (.regionStart frame.dummyRescue)
  pushRescuer frame.dummyRescue
  let result ← temp
  let value ← body
  emit .regionEnd
  let _ ← popRescuer
  let some frame ← popEnsure | throw (.error .noEnsure)
  emit (.copy result value)
  copyEnsure frame
  jump frame.bodyEnd
  -- what the body raises arrives here
  let exception ← temp
  emit (.label frame.dummyRescue)
  emit (.receiveException exception)
  emitEnsureBody frame
  emit (.raise exception)
  emit (.label frame.bodyEnd)
  return result

def currentException : Symbol := ⟨"$!"⟩

/-- Runs `handler` with what `body` raises. The handler may retry. -/
def rescue (body : BuildT m Operand) (handler : Variable → BuildT m Operand) :
    BuildT m Operand := do
  let savedException ← temp
  emit (.getGlobal savedException currentException)
  let entry ← newLabel
  let rescuer ← newLabel
  let after ← newLabel
  emit (.label entry)
  emit (.regionStart rescuer)
  pushRescuer rescuer
  let result ← temp
  let value ← body
  emit .regionEnd
  let _ ← popRescuer
  emit (.copy result value)
  jump after
  emit (.label rescuer)
  let exception ← temp
  emit (.receiveException exception)
  pushRescue ⟨entry, savedException⟩
  let handled ← attempt (handler exception)
  let _ ← popRescue
  emit (.copy result (← settle handled))
  emit (.label after)
  return result

end ScopeIR.BuildT
