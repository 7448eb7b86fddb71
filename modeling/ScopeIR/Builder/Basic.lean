import ScopeIR.Flags.Scope
import ScopeIR.Instr.Basic
import ScopeIR.Scope

/-! The state of one builder: the list it emits and the constructs that are open. Every stack has
its innermost entry first. -/

namespace ScopeIR

structure LoopId where
  number : Nat
  deriving DecidableEq

/-- A loop under construction. -/
structure LoopFrame where
  id : LoopId
  loopStart : Label
  loopEnd : Label
  iterStart : Label
  iterEnd : Label
  result : Variable
  deriving DecidableEq

/-- An active rescue: where a retry goes, and the exception it restores. -/
structure RescueFrame where
  entry : Label
  savedException : Variable
  deriving DecidableEq

/-- An ensure region. Its body is built once into `instrs` and copied to every exit. -/
structure EnsureFrame where
  regionStart : Label
  bodyStart : Label
  bodyEnd : Label
  dummyRescue : Label
  /-- The rescuer where the ensure was written. -/
  rescuer : Label
  innermostLoop : Option LoopId
  instrs : List Instr
  deriving DecidableEq

/-- Line numbers are noted often and written only before the next instruction. -/
structure LineLatch where
  pending : Option Int32
  last : Int32
  deriving DecidableEq

def LineLatch.fresh : LineLatch := ⟨none, -1⟩

/-- Repeating the last line changes nothing. -/
def LineLatch.note (l : LineLatch) (line : Int32) : LineLatch :=
  if line = l.last then l else ⟨some line, line⟩

structure Builder where
  scope : ScopeId
  /-- Temporaries come from the builder around this one. -/
  borrowsTemps : Bool
  instrs : Array Instr := #[]
  flags : ScopeFlags
  coverage : Coverage
  line : LineLatch := .fresh
  evalType : Option EvalType := none
  /-- The method whose block is being built. -/
  methodName : Option Symbol := none
  rescues : List RescueFrame := []
  ensures : List EnsureFrame := []
  ensureBodies : List EnsureFrame := []
  rescuers : List Label := []
  loops : List LoopFrame := []
  nextLoop : Nat := 0
  needsYieldBlock : Bool := false
  yieldClosure : Option Variable := none
  currentModule : Option Variable := none
  closureStart : Option Label := none

namespace Builder

def isInEnsureBody (b : Builder) : Bool := !b.ensureBodies.isEmpty

/-- Where a raise at the current position goes. -/
def rescuer (b : Builder) : Label := b.rescuers.headD .unrescued

def currentLoop (b : Builder) : Option LoopFrame := b.loops.head?

/-- The builder that temporaries of `b` come from; `outer` are the builders around it. -/
def tempOwner (b : Builder) : List Builder → Builder
  | [] => b
  | p :: outer => if b.borrowsTemps then p.tempOwner outer else b

def append (b : Builder) (i : Instr) : Builder :=
  { b with instrs := b.instrs.push i, flags := b.flags ∪ i.scopeFlags }

def prepend (b : Builder) (i : Instr) : Builder :=
  { b with instrs := #[i] ++ b.instrs, flags := b.flags ∪ i.scopeFlags }

def insertFlags (b : Builder) (flags : ScopeFlags) : Builder :=
  { b with flags := b.flags ∪ flags }

/-- What a finished closure says about the scope that holds it. Evaluated code may do anything. -/
def closureFlags (closure : Scope) : ScopeFlags :=
  let has := closure.flags.contains
  if has .usesEval then {.canReceiveBreaks, .canReceiveNonlocalReturns, .usesZSuper}
  else
    (if has .hasBreakInstrs || has .canReceiveBreaks then {.canReceiveBreaks} else ∅) ∪
    (if has .hasNonlocalReturns || has .canReceiveNonlocalReturns then
      {.canReceiveNonlocalReturns} else ∅) ∪
    (if has .usesZSuper then {.usesZSuper} else ∅)

/-- The final flags of the scope, given its closures. -/
def finalFlags (b : Builder) (closures : List Scope) : ScopeFlags :=
  let flags := b.instrs.foldl (fun flags i => flags ∪ i.scopeFlags) b.flags
  let flags := closures.foldl (fun flags c => flags ∪ closureFlags c) flags
  let flags := if flags.needsDynscope then flags ∪ {.requiresDynscope} else flags
  flags ∪ {.flagsComputed}

end Builder

end ScopeIR
