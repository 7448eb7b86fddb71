import ScopeIR.Proofs.Layout

/-! The list of a scope at work. Which tests hold and which calls raise is left to an oracle that knows
all that happened before. -/

namespace ScopeIR

/-- Without the name of a temporary, which copies change. -/
def Variable.erased : Variable → Variable
  | .temp _ => .temp (.plain 0)
  | v => v

def Operand.erased (o : Operand) : Operand := o.mapVars Variable.erased

/-- The call as others see it. -/
def Call.seen (c : Call) : Call :=
  { c with
    result := none
    receiver := c.receiver.erased
    args := c.args.map Operand.erased
    block := c.block.erased
    refined := false }

/-- What is done at one time: a call, which may raise, or a test. -/
inductive Deed where
  | called (call : Call) (raised : Bool)
  | tested (value test : Operand) (holds : Bool)
  deriving DecidableEq

/-- What was done, the last first. -/
abbrev Deeds := List Deed

structure Oracle where
  /-- The value equals the test. -/
  holds : Deeds → Operand → Operand → Bool
  raises : Deeds → Call → Bool

namespace Oracle

variable (O : Oracle)

/-- The truth of the value. It is not asked for where it is known before. -/
def truth (past : Deeds) (value : Operand) : Bool × Deeds :=
  if value.isTruthy then (true, past)
  else if value.isFalsey then (false, past)
  else
    let b := O.holds past value (.boolean true)
    (b, .tested value (.boolean true) b :: past)

/-- Whether the value matches the test. Against a boolean it is a test of truth. -/
def agrees (past : Deeds) (value test : Operand) : Bool × Deeds :=
  match test with
  | .boolean b =>
    let (truth, past) := O.truth past value
    (truth == b, past)
  | test =>
    let b := O.holds past value test
    (b, .tested value test b :: past)

/-- Whether the branch is taken. -/
def takes (past : Deeds) : BranchOp → Operand → Option Operand → Bool × Deeds
  | .isTrue, value, _ => O.agrees past value (.boolean true)
  | .isFalse, value, _ => O.agrees past value (.boolean false)
  | .isNil, value, _ => O.agrees past value .nil
  | .isUndefined, value, _ => O.agrees past value .undefined
  | .notEqual, value, test =>
    let (b, past) := O.agrees past value (test.getD .nil)
    (!b, past)

end Oracle

/-- What an instruction does to control. -/
inductive Effect where
  | passes
  | goes (target : Label)
  | branches (op : BranchOp) (target : Label) (value : Operand) (test : Option Operand)
  | calls (call : Call)
  | raises
  | leaves

def Effect.relabel (f : Label → Label) : Effect → Effect
  | .goes target => .goes (f target)
  | .branches op target value test => .branches op (f target) value test
  | e => e

def Instr.effect : Instr → Effect
  | .jump target => .goes target
  | .branch op target value test => .branches op target value.erased (test.map Operand.erased)
  | .call c => .calls c.seen
  | .raise _ => .raises
  | .ret _ | .nonlocalReturn .. | .breakOut .. => .leaves
  | _ => .passes

/-- How a list ends. It is lost when it goes to a label that is nowhere. -/
inductive Ending where
  | fell
  | returned
  | uncaught
  | lost
  deriving DecidableEq

inductive Machine where
  | at (index : Nat) (past : Deeds)
  | ended (ending : Ending) (past : Deeds)
  deriving DecidableEq

namespace Machine

/-- The label of the innermost region that is open in the text in front of the index. -/
def rescuerAt (prog : List Instr) (index : Nat) : Label :=
  ((regions [] (prog.take index)).getD []).headD .unrescued

def goTo (prog : List Instr) (target : Label) (past : Deeds) : Machine :=
  if .label target ∈ prog then .at (prog.idxOf (.label target)) past else .ended .lost past

/-- A raise that the label covers. -/
def raised (prog : List Instr) (rescuer : Label) (past : Deeds) : Machine :=
  if rescuer = .unrescued then .ended .uncaught past else goTo prog rescuer past

def step (O : Oracle) (prog : List Instr) : Machine → Machine
  | .at index past =>
    match prog[index]?.map Instr.effect with
    | none => .ended .fell past
    | some .passes => .at (index + 1) past
    | some (.goes target) => goTo prog target past
    | some (.branches op target value test) =>
      let (b, past) := O.takes past op value test
      if b then goTo prog target past else .at (index + 1) past
    | some (.calls call) =>
      let b := O.raises past call
      let past := .called call b :: past
      if b then raised prog (rescuerAt prog index) past else .at (index + 1) past
    | some .raises => raised prog (rescuerAt prog index) past
    | some .leaves => .ended .returned past
  | m => m

/-- After so many steps. -/
def exec (O : Oracle) (prog : List Instr) : Nat → Machine → Machine
  | 0, m => m
  | n + 1, m => exec O prog n (step O prog m)

section Running

variable {O : Oracle} {prog : List Instr} {m : Machine} {past : Deeds} {e : Ending} {n k : Nat}

theorem exec_add : exec O prog (n + k) m = exec O prog k (exec O prog n m) := by
  induction n generalizing m with
  | zero => rw [Nat.zero_add, exec]
  | succ n ih => rw [Nat.succ_add, exec, ih, exec]

theorem exec_ended : exec O prog n (.ended e past) = .ended e past := by
  induction n with
  | zero => rfl
  | succ n ih => exact ih

/-- What has ended stays so. -/
theorem exec_of_ended (h : exec O prog n m = .ended e past) (hk : n ≤ k) :
    exec O prog k m = .ended e past := by
  obtain ⟨j, rfl⟩ := Nat.exists_eq_add_of_le hk
  rw [exec_add, h, exec_ended]

end Running

end Machine

section Renaming

variable {ρ : Renaming}

mutual

theorem Operand.mapVars_mapVars (f g : Variable → Variable) :
    ∀ o : Operand, (o.mapVars g).mapVars f = o.mapVars (f ∘ g)
  | .atom a => by cases a <;> rfl
  | .hash pairs => congrArg Operand.hash (mapPairs_mapPairs f g pairs)
  | .splat array => congrArg Operand.splat (mapVars_mapVars f g array)

theorem Operand.mapPairs_mapPairs (f g : Variable → Variable) : ∀ pairs : List (Operand × Operand),
    Operand.mapPairs f (Operand.mapPairs g pairs) = Operand.mapPairs (f ∘ g) pairs
  | [] => rfl
  | (k, v) :: rest => by
    simp only [Operand.mapPairs, mapVars_mapVars f g k, mapVars_mapVars f g v,
      mapPairs_mapPairs f g rest]

end

theorem Renaming.KeepsNames.erased_var (hρ : ρ.KeepsNames) (v : Variable) :
    (ρ.var v).erased = v.erased := by
  by_cases hv : v.isTemp
  · have himage := hρ.temp hv
    cases v <;> cases hv
    cases h : ρ.var _ <;> rw [h] at himage <;> cases himage
    rfl
  · rw [hρ.other (Bool.eq_false_iff.mpr hv)]

theorem Renaming.KeepsNames.erased (hρ : ρ.KeepsNames) (o : Operand) :
    (ρ.operand o).erased = o.erased := by
  rw [Renaming.operand, Operand.erased, Operand.mapVars_mapVars]
  exact congrArg o.mapVars (funext hρ.erased_var)

theorem Renaming.KeepsNames.effect (hρ : ρ.KeepsNames) (i : Instr) :
    (i.rename ρ).effect = i.effect.relabel ρ.label := by
  cases i with
  | branch op target value test =>
    simp only [Instr.rename, Instr.effect, Effect.relabel, hρ.erased, Option.map_map,
      Function.comp_def]
  | call c =>
    simp only [Instr.rename, Instr.effect, Effect.relabel, Call.seen, hρ.erased, List.map_map,
      Function.comp_def]
  | _ => rfl

end Renaming

end ScopeIR
