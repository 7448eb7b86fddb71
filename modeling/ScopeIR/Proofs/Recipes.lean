import ScopeIR.Proofs.Handouts
import ScopeIR.Proofs.VeiledLines

/-! Programs that build a scope by calls and by operations that take bodies. Unlike trees of code they
see what each operation returns. A ledger keeps what they have to do with temporaries. -/

namespace ScopeIR

/-- What a program does with the temporaries of the scope it builds. -/
structure Ledger where
  /-- The program asked for them itself. -/
  asked : List Variable := []
  /-- Calls and other instructions that the program emits itself write them. -/
  written : List Variable := []
  /-- Operations returned them. -/
  returned : List Variable := []
  /-- Super calls returned them that found no method whose arguments they could forward. -/
  refused : List Variable := []

instance : Append Ledger where
  append k l := ⟨k.asked ++ l.asked, k.written ++ l.written, k.returned ++ l.returned,
    k.refused ++ l.refused⟩

namespace Ledger

variable {k l m : Ledger}

theorem append_assoc : k ++ l ++ m = k ++ (l ++ m) := by
  change Ledger.mk .. = Ledger.mk ..
  simp only [mk.injEq]
  exact ⟨List.append_assoc .., List.append_assoc .., List.append_assoc .., List.append_assoc ..⟩

theorem append_empty : k ++ ({} : Ledger) = k := by
  change Ledger.mk .. = _
  simp only [List.append_nil]

theorem empty_append : ({} : Ledger) ++ k = k := rfl

end Ledger

/-- Building with a ledger. -/
abbrev LedgerM := BuildT (StateM Ledger)

namespace LedgerM

variable {α : Type}

def enter (entry : Ledger) : LedgerM Unit := ExceptT.mk fun s k => ((.ok (), s), k ++ entry)

/-- The program of another scope keeps a ledger of its own. -/
def apart (x : LedgerM α) : LedgerM α := ExceptT.mk fun s k => ((x s {}).1, k)

/-- What the operation returns is entered. -/
def returning (x : LedgerM Operand) : LedgerM Operand := do
  let o ← x
  enter { returned := o.var?.toList }
  return o

end LedgerM

/-- An operation that takes no body, with the type of what it returns. -/
inductive Request : Type → Type 1
  /-- Looks at what was built so far. -/
  | look {α : Type} (f : Session → α) : Request α
  | note (line : Int32) : Request Unit
  | insertFlags (flags : ScopeFlags) : Request Unit
  | newLabel (stem : String) : Request Label
  | temp : Request Variable
  | yieldClosureVar : Request Variable
  | emit (i : Instr) : Request Unit
  | cond (target : Label) (value test : Operand) : Request Unit
  | condNe (target : Label) (value test : Operand) : Request Unit
  | call (result : Variable) (type : CallType) (receiver : Operand) (name : Symbol)
    (args : List Operand) (block : Operand) (flags : CallFlags) : Request Variable
  | renameMethod (newName oldName : Operand) : Request Operand
  | searchConst (name : Symbol) : Request Operand
  | searchModuleConst (module : Operand) (name : Symbol) : Request Operand
  | raiseError (className : Symbol) (message : Operand) : Request Operand
  | classVarContainer (declares : Bool) : Request Operand
  | getClassVar (name : Symbol) : Request Operand
  | putClassVar (declares : Bool) (name : Symbol) (value : Operand) : Request Operand
  | break (value : Operand) : Request Unit
  | next (value : Operand) : Request Unit
  | redo : Request Unit
  | retry : Request Unit
  | return (value : Operand) : Request Unit
  | zsuper (block : Operand) : Request Variable

namespace Request

open Session

def run : {α : Type} → Request α → SessionM α
  | _, look f => return f (← get)
  | _, note line => noteLine line
  | _, insertFlags flags => Session.insertFlags flags
  | _, newLabel stem => newLabelNamed stem
  | _, temp => Session.temp
  | _, yieldClosureVar => Session.yieldClosureVar
  | _, emit i => Session.emit i
  | _, cond target value test => Session.cond target value test
  | _, condNe target value test => Session.condNe target value test
  | _, call result type receiver name args block flags =>
    Session.call result type receiver name args block flags
  | _, renameMethod newName oldName => Session.renameMethod newName oldName
  | _, searchConst name => Session.searchConst name
  | _, searchModuleConst module name => Session.searchModuleConst module name
  | _, raiseError className message => Session.raiseError className message
  | _, classVarContainer declares => Session.classVarContainer declares
  | _, getClassVar name => Session.getClassVar name
  | _, putClassVar declares name value => Session.putClassVar declares name value
  | _, .break value => breakWith value
  | _, next value => BuildT.next value
  | _, redo => Session.redo
  | _, retry => Session.retry
  | _, .return value => returnWith value
  | _, zsuper block => BuildT.zsuper block

/-- What is entered for an operation that was done in `s` and returned `a`. An assignment returns the
operand it was given, unless it raises. -/
def entry (s : Session) : {α : Type} → Request α → (a : α) → Ledger
  | _, temp, v => { asked := [v], returned := [v] }
  | _, yieldClosureVar, v => { returned := [v] }
  | _, emit i, _ => { written := i.result?.toList }
  | _, call result .., _ => { written := [result] }
  | _, searchConst _, o | _, searchModuleConst .., o | _, raiseError .., o
  | _, classVarContainer _, o | _, getClassVar _, o => { returned := o.var?.toList }
  | _, putClassVar .., o =>
    { returned := match (isTopScope s).1 with
        | .ok true => o.var?.toList
        | _ => [] }
  | _, zsuper block, v =>
    { returned := [v], refused := if (Act.zsuper block).refuses s then [v] else [] }
  | _, _, _ => {}

end Request

inductive Recipe : Type → Type 1
  | pure {α : Type} (a : α) : Recipe α
  | bind {α β : Type} (x : Recipe α) (f : α → Recipe β) : Recipe β
  | request {α : Type} (r : Request α) : Recipe α
  | condWith (target : Label) (value test : Operand) (body : Recipe Unit) : Recipe Unit
  | condNeWith (target : Label) (value test : Operand) (body : Recipe Unit) : Recipe Unit
  | ifElse (value test : Operand) (yes no : Recipe Unit) : Recipe Unit
  | ifNot (value test : Operand) (body : Recipe Unit) : Recipe Unit
  | labelled {α : Type} (stem : String) (body : Label → Recipe α) : Recipe α
  | forLoop (test increment : Label → Recipe Unit) (body : Label → Label → Recipe Unit) :
    Recipe Unit
  | times (count : Nat) (body : Label → Nat → Recipe Unit) : Recipe Unit
  | loop (condition : Recipe Operand) (body : Recipe Unit) (goOn testFirst : Bool) :
    Recipe Operand
  | ensure (body cleanup : Recipe Operand) : Recipe Operand
  | rescue (body : Recipe Operand) (handler : Variable → Recipe Operand) : Recipe Operand
  | block (method : Symbol) (body : Recipe Unit) : Recipe Operand
  | nested (kind : ScopeKind) (name : Symbol) (body : Recipe Unit) : Recipe ScopeId

namespace Recipe

open LedgerM

def build : {α : Type} → Recipe α → LedgerM α
  | _, .pure a => Pure.pure a
  | _, bind x f => do
    let a ← x.build
    (f a).build
  | _, request r => do
    let s ← (get : SessionM Session)
    let a ← r.run
    enter (r.entry s a)
    return a
  | _, condWith target value test body => BuildT.condWith target value test body.build
  | _, condNeWith target value test body => BuildT.condNeWith target value test body.build
  | _, ifElse value test yes no => BuildT.ifElse value test yes.build no.build
  | _, ifNot value test body => BuildT.ifNot value test body.build
  | _, labelled stem body => BuildT.labelled stem fun label => (body label).build
  | _, forLoop test increment body =>
    BuildT.forLoop (fun after => (test after).build) (fun after => (increment after).build)
      fun after bottom => (body after bottom).build
  | _, times count body => BuildT.times count fun after i => (body after i).build
  | _, loop condition body goOn testFirst =>
    returning (BuildT.loop condition.build body.build goOn testFirst)
  | _, ensure body cleanup => returning (BuildT.ensure body.build cleanup.build)
  | _, rescue body handler =>
    returning (BuildT.rescue body.build fun exception => (handler exception).build)
  | _, block method body => apart (BuildT.block method body.build)
  | _, nested kind name body => apart (BuildT.nested kind name body.build)

end Recipe

namespace LedgerM

variable {α β : Type} {s t : Session} {k l : Ledger} {a : α} {b : β}

/-- The action succeeds with `a`, leaves `t` and has the ledger grow from `k` to `l`. -/
def Runs (x : LedgerM α) (s : Session) (k : Ledger) (a : α) (t : Session) (l : Ledger) : Prop :=
  x s k = ((.ok a, t), l)

theorem runs_of_ok {x : LedgerM α} (hr : (x s k).1.1 = .ok a) :
    Runs x s k a (x s k).1.2 (x s k).2 := Prod.ext (Prod.ext hr rfl) rfl

@[simp] theorem runs_pure {a b : α} : Runs (pure b) s k a t l ↔ b = a ∧ s = t ∧ k = l := by
  constructor
  · intro hr
    cases hr
    exact ⟨rfl, rfl, rfl⟩
  · rintro ⟨rfl, rfl, rfl⟩
    rfl

@[simp] theorem runs_bind {x : LedgerM α} {f : α → LedgerM β} :
    Runs (x >>= f) s k b t l ↔ ∃ a u m, Runs x s k a u m ∧ Runs (f a) u m b t l := by
  simp only [Runs, BuildT.bind_apply]
  rcases x s k with ⟨⟨_ | a, u⟩, m⟩
  · exact ⟨fun hr => (nomatch hr), fun ⟨_, _, _, hr, _⟩ => (nomatch hr)⟩
  · constructor
    · intro hr
      exact ⟨a, u, m, rfl, hr⟩
    · rintro ⟨_, _, _, hr, hf⟩
      cases hr
      exact hf

@[simp] theorem runs_liftM {x : SessionM α} :
    Runs (liftM x) s k a t l ↔ s.Runs x a t ∧ k = l := by
  change ((x s, k) = ((Except.ok a, t), l)) ↔ _
  rw [Prod.mk.injEq]
  rfl

/-- An action of the session leaves the ledger alone. -/
theorem runs_liftM_bind {x : SessionM α} {f : α → LedgerM β} :
    Runs (liftM x >>= f) s k b t l ↔ ∃ a u, s.Runs x a u ∧ Runs (f a) u k b t l := by
  simp only [runs_bind, runs_liftM, and_assoc, exists_and_left, exists_eq_left']

/-- Changes of the registry are lifted through sessions. -/
@[simp] theorem runs_liftM_registry {x : RegistryM α} :
    Runs (liftM x) s k a t l ↔ s.Runs (liftM x) a t ∧ k = l := runs_liftM

@[simp] theorem runs_enter {entry : Ledger} {v : Unit} :
    Runs (enter entry) s k v t l ↔ s = t ∧ k ++ entry = l := by
  constructor
  · intro hr
    cases hr
    exact ⟨rfl, rfl⟩
  · rintro ⟨rfl, rfl⟩
    rfl

@[simp] theorem runs_apart {x : LedgerM α} :
    Runs (apart x) s k a t l ↔ (∃ m, Runs x s {} a t m) ∧ k = l := by
  change ((x s {}).1, k) = ((Except.ok a, t), l) ↔ _
  rw [Prod.mk.injEq]
  refine and_congr_left' ⟨fun h => ⟨_, Prod.ext h rfl⟩, ?_⟩
  rintro ⟨m, h⟩
  exact congrArg Prod.fst h

@[simp] theorem runs_settle {outcome : Except BuildError α} :
    Runs (BuildT.settle outcome) s k a t l ↔ outcome = .ok a ∧ s = t ∧ k = l := by
  cases outcome with
  | ok b =>
    change Runs (Pure.pure b) s k a t l ↔ _
    rw [runs_pure, Except.ok.injEq]
  | error e => exact ⟨fun h => (nomatch h), fun h => (nomatch h.1)⟩

/-- An attempt that comes to something. -/
@[simp] theorem runs_attempt {x : LedgerM α} :
    Runs (BuildT.attempt x) s k (.ok a) t l ↔ Runs x s k a t l := by
  simp only [Runs, BuildT.attempt_apply]
  rcases x s k with ⟨⟨(_ | _ | _ | _) | b, u⟩, m⟩ <;> constructor <;> intro h <;> cases h
  all_goals rfl

@[simp] theorem runs_within {child : Builder} {x : LedgerM α} :
    Runs (BuildT.within child x) s k a t l ↔
      ∃ u, Runs x { s with builder := child, outer := s.builder :: s.outer } k a u l ∧
        t = { u with builder := s.builder, outer := s.outer } := by
  simp only [Runs, BuildT.within_apply]
  rcases x { s with builder := child, outer := s.builder :: s.outer } k with ⟨⟨r, u⟩, m⟩
  constructor
  · intro h
    cases h
    exact ⟨u, rfl, rfl⟩
  · rintro ⟨_, h, rfl⟩
    cases h
    rfl

theorem runs_returning {x : LedgerM Operand} {o : Operand} :
    Runs (returning x) s k o t l ↔
      ∃ m, Runs x s k o t m ∧ m ++ { returned := o.var?.toList } = l := by
  simp only [returning, runs_bind, runs_enter, runs_pure]
  constructor
  · rintro ⟨_, _, m, hx, _, _, _, ⟨rfl, rfl⟩, rfl, rfl, rfl⟩
    exact ⟨m, hx, rfl⟩
  · rintro ⟨m, hx, rfl⟩
    exact ⟨_, _, m, hx, ⟨⟩, _, _, ⟨rfl, rfl⟩, rfl, rfl, rfl⟩

end LedgerM

end ScopeIR
