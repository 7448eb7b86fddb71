import ScopeIR.Proofs.CarriedValues
import ScopeIR.Proofs.Execution
import ScopeIR.Proofs.Strokes

/-! Data under a renaming of its variables. Nothing that builders look at changes with the indices
of temporaries, as long as different ones stay different. -/

namespace ScopeIR

variable {f : Variable → Variable}

/-- Different variables stay different, temporaries stay temporaries and all others stay as they
are. -/
structure Variable.Renames (f : Variable → Variable) : Prop where
  injective : Function.Injective f
  isTemp (v : Variable) : (f v).isTemp = v.isTemp
  other {v : Variable} : v.isTemp = false → f v = v

namespace Operand

theorem isTruthy_mapVars (o : Operand) : (o.mapVars f).isTruthy = o.isTruthy := by
  cases o with
  | atom a => cases a <;> rfl
  | hash | splat => rfl

theorem isFalsey_mapVars (o : Operand) : (o.mapVars f).isFalsey = o.isFalsey := by
  cases o with
  | atom a => cases a <;> rfl
  | hash | splat => rfl

/-- Constants are not renamed, and nothing else becomes one. -/
theorem mapVars_eq_atom_iff {o : Operand} {a : Atom} (ha : ∀ v, a ≠ .var v) :
    o.mapVars f = .atom a ↔ o = .atom a := by
  cases o with
  | atom b =>
    cases b with
    | var v =>
      constructor
      · intro h
        exact absurd (Operand.atom.inj h).symm (ha _)
      · intro h
        exact absurd (Operand.atom.inj h).symm (ha _)
    | _ => exact Iff.rfl
  | hash | splat => exact ⟨fun h => (nomatch h), fun h => (nomatch h)⟩

theorem mapPairs_eq (pairs : List (Operand × Operand)) :
    mapPairs f pairs = pairs.map (Prod.map (mapVars f) (mapVars f)) := by
  induction pairs with
  | nil => rfl
  | cons p rest ih => rw [List.map_cons, ← ih]; rfl

theorem deepen_var (hf : Variable.Renames f) (n : UInt64) (v : Variable) :
    (f v).deepen n = (v.deepen n).map f := by
  cases v with
  | temp t =>
    have htemp := hf.isTemp (.temp t)
    cases hv : f (.temp t) <;> rw [hv] at htemp <;> cases htemp
    exact congrArg some hv.symm
  | named v =>
    rw [hf.other rfl]
    simp only [Variable.deepen, Option.map_map]
    congr 1
    funext d
    exact (hf.other rfl).symm
  | self =>
    rw [hf.other rfl]
    exact congrArg some (hf.other rfl).symm

mutual

theorem deepen_mapVars (hf : Variable.Renames f) (n : UInt64) :
    ∀ o : Operand, (o.mapVars f).deepen n = (o.deepen n).map (mapVars f)
  | .atom a => by
    cases a with
    | var v =>
      simp only [mapVars, deepen, deepen_var hf, Option.map_map]
      rfl
    | _ => rfl
  | .hash pairs => by
    simp only [mapVars, deepen, deepenPairs_mapPairs hf n pairs, Option.map_map]
    rfl
  | .splat array => by
    simp only [mapVars, deepen, deepen_mapVars hf n array, Option.map_map]
    rfl

theorem deepenPairs_mapPairs (hf : Variable.Renames f) (n : UInt64) :
    ∀ pairs : List (Operand × Operand),
      deepenPairs n (mapPairs f pairs) = (deepenPairs n pairs).map (mapPairs f)
  | [] => rfl
  | (k, v) :: rest => by
    simp only [mapPairs, deepenPairs, deepen_mapVars hf n k, deepen_mapVars hf n v,
      deepenPairs_mapPairs hf n rest]
    cases k.deepen n with
    | none => rfl
    | some k' =>
      cases v.deepen n with
      | none => rfl
      | some v' => cases deepenPairs n rest <;> rfl

end

end Operand

/-- The instruction with every variable in it replaced by its image. -/
def Instr.mapVars (f : Variable → Variable) : Instr → Instr
  | .label l => .label l
  | .jump l => .jump l
  | .nop => .nop
  | .branch op target value test => .branch op target (value.mapVars f) (test.map (·.mapVars f))
  | .lineNumber line coverage => .lineNumber line coverage
  | .tracePoint t => .tracePoint { t with module := f t.module }
  | .copy r value => .copy (f r) (value.mapVars f)
  | .call c =>
    .call { c with
      result := c.result.map f
      receiver := c.receiver.mapVars f
      args := c.args.map (·.mapVars f)
      block := c.block.mapVars f }
  | .zsuper z =>
    .zsuper { z with
      result := f z.result
      receiver := z.receiver.mapVars f
      args := z.args.map (·.mapVars f)
      block := z.block.mapVars f }
  | .aliasMethod new old => .aliasMethod (new.mapVars f) (old.mapVars f)
  | .searchConst r start name publicOnly => .searchConst (f r) (start.mapVars f) name publicOnly
  | .searchModuleConst r module name publicOnly =>
    .searchModuleConst (f r) (module.mapVars f) name publicOnly
  | .classVarModule r start object =>
    .classVarModule (f r) (start.mapVars f) (object.map (·.mapVars f))
  | .getClassVar r container name => .getClassVar (f r) (container.mapVars f) name
  | .putClassVar container name value => .putClassVar (container.mapVars f) name (value.mapVars f)
  | .getGlobal r name => .getGlobal (f r) name
  | .putGlobal name value => .putGlobal name (value.mapVars f)
  | .helperCall r helper args => .helperCall (f r) helper (args.map (·.mapVars f))
  | .loadImplicitClosure r => .loadImplicitClosure (f r)
  | .receive r parameter => .receive (f r) parameter
  | .regionStart rescuer => .regionStart rescuer
  | .regionEnd => .regionEnd
  | .receiveException r => .receiveException (f r)
  | .raise value => .raise (value.mapVars f)
  | .threadPoll => .threadPoll
  | .checkLocalJump maybeLambda => .checkLocalJump maybeLambda
  | .ret value => .ret (value.mapVars f)
  | .nonlocalReturn value method => .nonlocalReturn (value.mapVars f) method
  | .breakOut value scope => .breakOut (value.mapVars f) scope

def Renaming.mapVars (f : Variable → Variable) (σ : Renaming) : Renaming :=
  { σ with vars := σ.vars.map (Prod.map f f) }

namespace Renaming

variable (hf : Function.Injective f) (σ : Renaming) (v : Variable)

include hf

theorem lookup_mapVars : (σ.mapVars f).vars.lookup (f v) = (σ.vars.lookup v).map f := by
  obtain ⟨labels, vars⟩ := σ
  induction vars with
  | nil => rfl
  | cons p rest ih =>
    obtain ⟨old, new⟩ := p
    by_cases hv : v = old
    · subst hv
      simp only [mapVars, List.map_cons, Prod.map_apply, List.lookup_cons_self, Option.map_some]
    · have hne : (f v == f old) = false := beq_eq_false_iff_ne.mpr fun h => hv (hf h)
      simp only [mapVars, List.map_cons, Prod.map_apply, List.lookup_cons, hne,
        beq_eq_false_iff_ne.mpr hv]
      exact ih

theorem hasVar_mapVars : (σ.mapVars f).hasVar (f v) = σ.hasVar v := by
  rw [hasVar, lookup_mapVars hf, Option.isSome_map, hasVar]

theorem var_mapVars : (σ.mapVars f).var (f v) = f (σ.var v) := by
  rw [var, lookup_mapVars hf, var]
  cases σ.vars.lookup v <;> rfl

theorem operand_mapVars (o : Operand) : (σ.mapVars f).operand (o.mapVars f) =
    (σ.operand o).mapVars f := by
  rw [operand, operand, Operand.mapVars_mapVars, Operand.mapVars_mapVars]
  exact congrArg o.mapVars (funext fun v => σ.var_mapVars hf v)

end Renaming

namespace Instr

/-- Copies are renamed as what they are copies of. -/
theorem rename_mapVars (hf : Function.Injective f) (σ : Renaming) (i : Instr) :
    (i.mapVars f).rename (σ.mapVars f) = (i.rename σ).mapVars f := by
  have hargs : ∀ args : List Operand, (args.map (·.mapVars f)).map (σ.mapVars f).operand =
      (args.map σ.operand).map (·.mapVars f) := by
    intro args
    rw [List.map_map, List.map_map]
    exact List.map_congr_left fun o _ => σ.operand_mapVars hf o
  have hoption : ∀ o : Option Operand, (o.map (·.mapVars f)).map (σ.mapVars f).operand =
      (o.map σ.operand).map (·.mapVars f) := by
    intro o
    cases o with
    | none => rfl
    | some o => exact congrArg some (σ.operand_mapVars hf o)
  cases i with
  | call c =>
    obtain ⟨type, result, name, receiver, args, block, flags, refined⟩ := c
    cases result <;>
      simp only [mapVars, rename, Option.map_none, Option.map_some, hargs, σ.operand_mapVars hf,
        σ.var_mapVars hf]
  | _ =>
    simp only [mapVars, rename, hargs, hoption, σ.operand_mapVars hf, σ.var_mapVars hf] <;> rfl

theorem result?_mapVars (i : Instr) : (i.mapVars f).result? = i.result?.map f := by
  cases i <;> rfl

theorem closure?_mapVars (i : Instr) : (i.mapVars f).closure? = i.closure? := by
  cases i with
  | call c => rw [mapVars, closure?_call, closure?_call, Operand.closure?_mapVars]
  | zsuper z => rw [mapVars, closure?_zsuper, closure?_zsuper, Operand.closure?_mapVars]
  | _ => rfl

theorem scopeFlags_mapVars (i : Instr) : (i.mapVars f).scopeFlags = i.scopeFlags := by
  cases i with
  | call c => rw [mapVars, scopeFlags_call, scopeFlags_call, Operand.closure?_mapVars]
  | receive r parameter => cases parameter <;> rfl
  | _ => rfl

theorem branchIf?_mapVars (value test : Operand) (target : Label) :
    branchIf? (value.mapVars f) (test.mapVars f) target =
      (branchIf? value test target).map (mapVars f) := by
  have hnil : value.mapVars f = .nil ↔ value = .nil :=
    Operand.mapVars_eq_atom_iff fun _ h => nomatch h
  have hundefined : value.mapVars f = .undefined ↔ value = .undefined :=
    Operand.mapVars_eq_atom_iff fun _ h => nomatch h
  cases test with
  | atom a =>
    cases a with
    | boolean b =>
      cases b
      all_goals
        simp only [Operand.mapVars, branchIf?, Operand.isTruthy_mapVars, Operand.isFalsey_mapVars]
        split
        · rfl
        · split <;> rfl
    | nil =>
      simp only [Operand.mapVars, branchIf?, Operand.isTruthy_mapVars, hnil]
      split
      · rfl
      · split <;> rfl
    | undefined =>
      simp only [Operand.mapVars, branchIf?, hundefined]
      split <;> rfl
    | _ => rfl
  | hash | splat => rfl

theorem branchUnlessEqual_mapVars (target : Label) (value test : Operand) :
    branchUnlessEqual target (value.mapVars f) (test.mapVars f) =
      (branchUnlessEqual target value test).mapVars f := by
  cases test with
  | atom a =>
    cases a with
    | boolean b => cases b <;> rfl
    | _ => rfl
  | hash | splat => rfl

section Forwarding

theorem positional?_mapVars (i : Instr) :
    (i.mapVars f).positional? = i.positional?.map (·.mapVars f) := by
  cases i with
  | receive r parameter => cases parameter <;> rfl
  | _ => rfl

theorem keyword?_mapVars (i : Instr) : (i.mapVars f).keyword? =
    i.keyword?.map (Prod.map (·.mapVars f) (·.mapVars f)) := by
  cases i with
  | receive r parameter => cases parameter <;> rfl
  | _ => rfl

theorem keywordRest?_mapVars (i : Instr) : (i.mapVars f).keywordRest? =
    i.keywordRest?.map (Prod.map (·.mapVars f) (·.mapVars f)) := by
  cases i with
  | receive r parameter => cases parameter <;> rfl
  | _ => rfl

end Forwarding

end Instr

def LoopFrame.mapVars (f : Variable → Variable) (frame : LoopFrame) : LoopFrame :=
  { frame with result := f frame.result }

def RescueFrame.mapVars (f : Variable → Variable) (frame : RescueFrame) : RescueFrame :=
  { frame with savedException := f frame.savedException }

def EnsureFrame.mapVars (f : Variable → Variable) (frame : EnsureFrame) : EnsureFrame :=
  { frame with instrs := frame.instrs.map (·.mapVars f) }

def ForwardedArgs.mapVars (f : Variable → Variable) (args : ForwardedArgs) : ForwardedArgs :=
  { args with
    positional := args.positional.map (·.mapVars f)
    keywords := args.keywords.map (Prod.map (·.mapVars f) (·.mapVars f)) }

def BuildError.mapVars (f : Variable → Variable) : BuildError → BuildError
  | .noResult i => .noResult (i.mapVars f)
  | .noBranch value test => .noBranch (value.mapVars f) (test.mapVars f)
  | e => e

def Fault.mapVars (f : Variable → Variable) : Fault → Fault
  | .error e => .error (e.mapVars f)
  | e => e

/-- Leads a line's code to the tracer. -/
def Instr.isTrace : Instr → Bool
  | .tracePoint _ => true
  | _ => false

/-- The list without its trace instructions, renamed. -/
def untraced (f : Variable → Variable) (list : List Instr) : List Instr :=
  (list.filter (!·.isTrace)).map (·.mapVars f)

section Untraced

variable {i : Instr} {list rest : List Instr}

theorem untraced_append : untraced f (list ++ rest) = untraced f list ++ untraced f rest := by
  simp only [untraced, List.filter_append, List.map_append]

theorem untraced_kept (hi : i.isTrace = false) : untraced f [i] = [i.mapVars f] := by
  simp only [untraced, List.filter_cons, hi, Bool.not_false, if_true, List.filter_nil,
    List.map_cons, List.map_nil]

theorem untraced_trace (hi : i.isTrace) : untraced f [i] = [] := by
  simp only [untraced, List.filter_cons, hi, Bool.not_true, Bool.false_eq_true, if_false,
    List.filter_nil, List.map_nil]

theorem filterMap_untraced {α : Type} {h : Instr → Option α} {e : α → α}
    (htrace : ∀ i : Instr, i.isTrace → h i = none) (he : ∀ i, h (i.mapVars f) = (h i).map e) :
    (untraced f list).filterMap h = (list.filterMap h).map e := by
  induction list with
  | nil => rfl
  | cons i list ih =>
    rw [← List.singleton_append, untraced_append, List.filterMap_append, List.filterMap_append, ih,
      List.map_append]
    congr 1
    by_cases hi : i.isTrace
    · rw [untraced_trace hi, List.filterMap_cons_none (htrace i hi)]
      rfl
    · rw [untraced_kept (Bool.eq_false_iff.mpr hi)]
      cases hr : h i <;> simp [he, hr]

/-- Traces receive nothing. -/
theorem ofInstrs_untraced {depth : Nat} {receivesKeywords : Bool} :
    ForwardedArgs.ofInstrs (untraced f list) depth receivesKeywords =
      (ForwardedArgs.ofInstrs list depth receivesKeywords).mapVars f := by
  have htrace : ∀ i : Instr, i.isTrace →
      i.positional? = none ∧ i.keyword? = none ∧ i.keywordRest? = none := by
    intro i hi
    cases i <;> cases hi
    exact ⟨rfl, rfl, rfl⟩
  simp only [ForwardedArgs.ofInstrs, ForwardedArgs.mapVars,
    filterMap_untraced (fun i hi => (htrace i hi).1) Instr.positional?_mapVars,
    filterMap_untraced (fun i hi => (htrace i hi).2.1) Instr.keyword?_mapVars,
    filterMap_untraced (fun i hi => (htrace i hi).2.2) Instr.keywordRest?_mapVars,
    List.map_append, List.map_reverse]

end Untraced

/-- The builder without traces, renamed. -/
def Builder.untraced (f : Variable → Variable) (b : Builder) : Builder :=
  { b with
    instrs := (ScopeIR.untraced f b.instrs.toList).toArray
    rescues := b.rescues.map (·.mapVars f)
    ensures := b.ensures.map (·.mapVars f)
    ensureBodies := b.ensureBodies.map (·.mapVars f)
    loops := b.loops.map (·.mapVars f)
    yieldClosure := b.yieldClosure.map f
    currentModule := none }

/-- New indices for temporaries, counter by counter. -/
structure Renumbering where
  plain : ScopeId → UInt64 → UInt64
  closure : UInt64 → UInt64 → UInt64
  plain_injective (counter : ScopeId) : Function.Injective (plain counter)
  closure_injective (closure' : UInt64) : Function.Injective (closure closure')

namespace Renumbering

variable (ρ : Renumbering) (counter : ScopeId)

/-- Plain temporaries come from the counter, those of closures say where they come from. Every
temporary keeps its kind, and variables for modules keep their indices too. -/
def var : Variable → Variable
  | .temp (.plain i) => .temp (.plain (ρ.plain counter i))
  | .temp (.ofClosure closure i) => .temp (.ofClosure closure (ρ.closure closure i))
  | v => v

theorem renames_var : Variable.Renames (ρ.var counter) where
  injective := by
    rintro ((i | ⟨k, i⟩ | i) | v | _) ((j | ⟨l, j⟩ | j) | w | _) h <;>
      simp only [var, Variable.temp.injEq, TempVar.plain.injEq, TempVar.ofClosure.injEq,
        TempVar.currentModule.injEq, Variable.named.injEq, reduceCtorEq] at h
    · rw [ρ.plain_injective counter h]
    · obtain ⟨rfl, h⟩ := h
      rw [ρ.closure_injective k h]
    · rw [h]
    · rw [h]
    · rfl
  isTemp v := by
    cases v with
    | temp t => cases t <;> rfl
    | _ => rfl
  other {v} hv := by
    cases v with
    | temp t => cases hv
    | _ => rfl

end Renumbering

end ScopeIR
