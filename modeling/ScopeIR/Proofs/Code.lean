import ScopeIR.Builder.Nested
import ScopeIR.Builder.ZSuper

/-! Structured code: trees of builder operations, with every operand that the operations were given.
Labels are named by the order in which helpers handed them out. -/

namespace ScopeIR

/-- Moves no control, places no label and opens no region. -/
def Instr.isPlain : Instr → Bool
  | .label _ | .jump _ | .branch .. | .regionStart _ | .regionEnd => false
  | _ => true

/-- The label in front of the body of a closure. -/
def ScopeId.startLabel (id : ScopeId) : Label := ⟨s!"{id.index}_START", 0⟩

/-- A stem that no start label has. -/
structure Stem where
  text : String
  notStart (id : ScopeId) : text ≠ id.startLabel.stem

inductive Code where
  | done
  | seq (first rest : Code)
  /-- Builds nothing; the session is noted down. -/
  | mark
  | temp
  | note (line : Int32)
  | emit (i : { i : Instr // i.isPlain })
  /-- The call's mark for refinements is that of its scope. -/
  | call (result : Variable) (type : CallType) (receiver : Operand) (name : Symbol)
    (args : List Operand) (block : Operand) (flags : CallFlags)
  | jump (target : Nat)
  | branch (op : BranchOp) (target : Nat) (value : Operand) (test : Option Operand)
  | cond (target : Nat) (value test : Operand)
  | condNe (target : Nat) (value test : Operand)
  | ifElse (value test : Operand) (yes no : Code)
  | ifNot (value test : Operand) (body : Code)
  | forLoop (test increment body : Code)
  | times (count : Nat) (body : Nat → Code)
  | labelled (stem : Stem) (body : Code)
  | loop (condition : Code) (value : Operand) (body : Code) (goOn testFirst : Bool)
  | ensure (body : Code) (value : Operand) (cleanup : Code) (unused : Operand)
  | rescue (body : Code) (value : Operand) (handler : Code) (handled : Operand)
  | break (value : Operand)
  | next (value : Operand)
  | redo
  | retry
  | return (value : Operand)
  | zsuper (block : Operand)
  | block (method : Symbol) (body : Code)
  | nested (kind : ScopeKind) (name : Symbol) (body : Code)

/-- Where code stands: the kind of the nearest scope that owns its frame, and from inside out, for
each closure in between, the method whose block it is, if it is one. -/
structure Nesting where
  frame : ScopeKind
  calls : List (Option Symbol)
  deriving DecidableEq

namespace Nesting

/-- Inside a block passed to the method. -/
def inBlock (place : Nesting) (method : Symbol) : Nesting :=
  { place with calls := some method :: place.calls }

/-- Inside a nested scope of this kind. -/
def inScope (place : Nesting) (kind : ScopeKind) : Nesting :=
  if kind.isClosureLike then { place with calls := none :: place.calls } else ⟨kind, []⟩

end Nesting

/-- What building code leaves behind besides the session. -/
structure Trail where
  /-- The labels that helpers handed to the code of the scope at work, first one first. -/
  handed : List Label
  /-- The sessions at the marks, and where they stand. -/
  points : List (Nesting × Session)

/-- The label was handed out too. -/
def Trail.handing (h : Trail) (label : Label) : Trail := { h with handed := h.handed ++ [label] }

theorem Trail.mem_handing {h : Trail} {l m : Label} :
    m ∈ (h.handing l).handed ↔ m ∈ h.handed ∨ m = l := by
  rw [handing, List.mem_append, List.mem_singleton]

/-- Building along a trail. -/
abbrev TrailM := BuildT (StateM Trail)

namespace TrailM

def trail : TrailM Trail := ExceptT.mk fun s h => ((.ok h, s), h)

def setHanded (labels : List Label) : TrailM Unit :=
  ExceptT.mk fun s h => ((.ok (), s), { h with handed := labels })

def hand (label : Label) : TrailM Unit :=
  ExceptT.mk fun s h => ((.ok (), s), h.handing label)

def mark (place : Nesting) : TrailM Unit :=
  ExceptT.mk fun s h => ((.ok (), s), { h with points := (place, s) :: h.points })

/-- Acts on a label that was handed out; without it there is nothing to do. -/
def withHanded (target : Nat) (act : Label → SessionM Unit) : TrailM Unit := do
  match (← trail).handed[target]? with
  | some label => act label
  | none => pure ()

/-- Builds the code of another scope, which is handed labels of its own. -/
def apart {α : Type} (x : TrailM α) : TrailM Unit := do
  let outside ← trail
  setHanded []
  let _ ← x
  setHanded outside.handed

end TrailM

namespace Code

open TrailM

def build : Code → Nesting → TrailM Unit
  | done, _ => pure ()
  | seq first rest, place => do
    first.build place
    rest.build place
  | mark, place => TrailM.mark place
  | temp, _ => do let _ ← Session.temp
  | note line, _ => Session.noteLine line
  | emit i, _ => Session.emit i
  | call result type receiver name args given flags, _ => do
    let _ ← Session.call result type receiver name args given flags
  | jump target, _ => withHanded target Session.jump
  | branch op target value test, _ =>
    withHanded target fun label => Session.emit (.branch op label value test)
  | cond target value test, _ => withHanded target fun label => Session.cond label value test
  | condNe target value test, _ => withHanded target fun label => Session.condNe label value test
  | ifElse value test yes no, place => BuildT.ifElse value test (yes.build place) (no.build place)
  | ifNot value test body, place => BuildT.ifNot value test (body.build place)
  | forLoop test increment body, place =>
    BuildT.forLoop
      (fun after => do
        hand after
        test.build place)
      (fun _ => increment.build place)
      (fun _ bottom => do
        hand bottom
        body.build place)
  | times count body, place =>
    BuildT.times count fun after i => do
      hand after
      (body i).build place
  | labelled stem body, place =>
    BuildT.labelled stem.text fun label => do
      hand label
      body.build place
  | loop condition value body goOn testFirst, place => do
    let _ ← BuildT.loop (do condition.build place; return value) (body.build place) goOn testFirst
  | ensure body value cleanup unused, place => do
    let _ ← BuildT.ensure (do body.build place; return value)
      (do cleanup.build place; return unused)
  | rescue body value handler handled, place => do
    let _ ← BuildT.rescue (do body.build place; return value)
      fun _ => do handler.build place; return handled
  | .break value, _ => Session.breakWith value
  | next value, _ => BuildT.next value
  | redo, _ => Session.redo
  | retry, _ => Session.retry
  | .return value, _ => Session.returnWith value
  | zsuper given, _ => do let _ ← BuildT.zsuper given
  | block method body, place => apart (BuildT.block method (body.build (place.inBlock method)))
  | nested kind name body, place =>
    apart (BuildT.nested kind name (body.build (place.inScope kind)))

end Code

end ScopeIR
