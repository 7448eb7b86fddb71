import ScopeIR.Diagnostic
import ScopeIR.Proofs.Stretches

/-! Branches against the values that operands have while the program runs. What is folded away when the
code is built must be what the branch would have done, and the two kinds of branch are each other's
complement. -/

namespace ScopeIR

/-- What stands for something missing, or for the machine itself, and is no object of the program. -/
inductive Marker where
  | undefined
  | noBlock
  | scope
  deriving DecidableEq

/-- What a variable may have while the program runs. -/
inductive Value where
  | nil
  | boolean (b : Bool)
  | integer (n : Int64)
  | symbol (s : Symbol)
  | string (bytes : List UInt8)
  | hash (pairs : List (Value × Value))
  | array (members : List Value)
  | block (code : ScopeId)
  | object (reference : Nat)
  | marker (m : Marker)

/-- What operands refer to besides variables, where the code runs. -/
structure Frame where
  /-- The module that many static scopes up. -/
  moduleAt : UInt64 → Nat
  objectClass : Nat
  /-- What a splat makes of its operand. -/
  spread : Value → List Value
  /-- Whether a marker passes for true. The language does not say. -/
  holds : Marker → Bool

namespace Frame

variable (F : Frame)

/-- All but nil and false is true. -/
def Truthy : Value → Prop
  | .nil | .boolean false => False
  | .marker m => F.holds m
  | _ => True

def valueOf : Atom → Value
  | .nil => .nil
  | .boolean b => .boolean b
  | .fixnum n => .integer n
  | .symbol s => .symbol s
  | .string bytes => .string bytes
  | .undefined => .marker .undefined
  | .currentScope => .marker .scope
  | .scopeModule depth => .object (F.moduleAt depth)
  | .nullBlock => .marker .noBlock
  | .objectClass => .object F.objectClass
  | .closure id => .block id
  -- Reading an operand asks the valuation and never comes here.
  | .var _ => .nil

def domain : Domain Value := ⟨F.valueOf, .hash, fun array => .array (F.spread array)⟩

/-- What is taken for true when the code is built is true when it runs. -/
theorem truthy_valueOf {a : Atom} (h : (Operand.atom a).isTruthy) : F.Truthy (F.valueOf a) := by
  cases a with
  | boolean b =>
    cases b with
    | true => trivial
    | false => cases h
  | fixnum _ | symbol _ | string _ | scopeModule _ | objectClass => trivial
  | nil | undefined | currentScope | nullBlock | closure _ | var _ => cases h

theorem not_truthy_valueOf {a : Atom} (h : (Operand.atom a).isFalsey) :
    ¬ F.Truthy (F.valueOf a) := by
  cases a with
  | boolean b =>
    cases b with
    | true => cases h
    | false => exact id
  | nil => exact id
  | _ => cases h

/-- The program as it runs, whatever the other instructions do. -/
def runtime (does raises : Instr → (Variable → Value) → (Variable → Value) → Prop) :
    Runtime Value where
  toDomain := F.domain
  truthy := F.Truthy
  does := does
  raises := raises
  truthy_of_isTruthy := F.truthy_valueOf
  not_truthy_of_isFalsey := F.not_truthy_valueOf

/-- The value is as the test has it. -/
def Meets : Operand → Value → Prop
  | .boolean true, v => F.Truthy v
  | .boolean false, v => ¬ F.Truthy v
  | .nil, v => v = .nil
  | .undefined, v => v = .marker .undefined
  | _, _ => False

end Frame

/-- What a branch for a match may be built against. -/
def branchTests : List Operand := [.boolean true, .boolean false, .nil, .undefined]

theorem Frame.matches_iff_meets {F : Frame}
    {does raises : Instr → (Variable → Value) → (Variable → Value) → Prop} {σ : Variable → Value}
    {value test : Operand} (h : test ∈ branchTests) :
    (F.runtime does raises).Matches σ value test ↔ F.Meets test (value.read F.domain σ) := by
  obtain rfl | rfl | rfl | rfl : test = .boolean true ∨ test = .boolean false ∨ test = .nil ∨
      test = .undefined := by
    simpa only [branchTests, List.mem_cons, List.not_mem_nil, or_false] using h
  all_goals exact Iff.rfl

/-- From the instruction, wherever it stands, control goes there and nowhere else. -/
def Runtime.Sends {V : Type} (R : Runtime V) (i : Instr) (σ : Variable → V) (z : Next V) : Prop :=
  ∀ (prog : List Instr) (n : Nat), prog[n]? = some i → ∀ z', R.Step prog n σ z' ↔ z' = z

namespace Runtime

variable {V : Type} {R : Runtime V} {i : Instr} {σ : Variable → V} {y z : Next V}
  {value test : Operand} {target : Label}

theorem Sends.unique (hy : R.Sends i σ y) (hz : R.Sends i σ z) : y = z :=
  (hz [i] 0 rfl y).mp ((hy [i] 0 rfl y).mpr rfl)

/-- Two ways to go that cannot both be taken, by a condition that decides between them. -/
theorem sends_iff {p : Prop} (hne : y ≠ z) (hy : p → R.Sends i σ y)
    (hz : ¬ p → R.Sends i σ z) : (R.Sends i σ y ↔ p) ∧ (R.Sends i σ z ↔ ¬ p) := by
  refine ⟨⟨fun h => ?_, hy⟩, ⟨fun h hp => hne ((hy hp).unique h), hz⟩⟩
  by_contra hp
  exact hne (h.unique (hz hp))

theorem sends_branch {op : BranchOp} {other : Option Operand} :
    (R.Sends (.branch op target value other) σ (.sent target σ) ↔ R.Takes σ op value other) ∧
      (R.Sends (.branch op target value other) σ (.past σ) ↔ ¬ R.Takes σ op value other) :=
  sends_iff nofun (fun h _ _ hn _ => step_taken hn h) fun h _ _ hn _ => step_declined hn h

/-- Folded or not, the branch for a match goes to its target exactly where the value matches. -/
theorem sends_branchIf (h : Instr.branchIf? value test target = some i) :
    (R.Sends i σ (.sent target σ) ↔ R.Matches σ value test) ∧
      (R.Sends i σ (.past σ) ↔ ¬ R.Matches σ value test) := by
  obtain ⟨rfl, hnot⟩ | ⟨rfl, hmatches⟩ | ⟨op, rfl, htakes⟩ := branchIf_cases h
  · exact sends_iff nofun (fun hm => absurd hm (hnot R σ)) fun _ _ _ hn _ => step_idle hn rfl
  · exact sends_iff nofun (fun _ _ _ hn _ => step_jump hn) fun hm => absurd (hmatches R σ) hm
  · exact ⟨sends_branch.1.trans (htakes R σ), sends_branch.2.trans (not_congr (htakes R σ))⟩

/-- The branch for a difference goes to its target exactly where the value does not match. -/
theorem sends_branchUnlessEqual :
    (R.Sends (.branchUnlessEqual target value test) σ (.past σ) ↔ R.Matches σ value test) ∧
      (R.Sends (.branchUnlessEqual target value test) σ (.sent target σ) ↔
        ¬ R.Matches σ value test) := by
  obtain ⟨op, other, hi, htakes⟩ := branchUnlessEqual_cases target value test
  rw [hi]
  refine ⟨sends_branch.2.trans ?_, sends_branch.1.trans (htakes R σ)⟩
  rw [htakes R σ, not_not]

end Runtime

/-- A branch for a match is built against the four tests, and whatever was folded it goes to its target
where the value that the operand then has is as the test has it, and on where it is not; the branch for
a difference does the opposite. Against anything else none is built, whatever the operand. -/
theorem sends_branchIf_iff (F : Frame)
    (does raises : Instr → (Variable → Value) → (Variable → Value) → Prop) (σ : Variable → Value)
    (value test : Operand) (target : Label) :
    (test ∈ branchTests → ∃ i, Session.branchIf value test target = .ok i ∧
      ((F.runtime does raises).Sends i σ (.sent target σ) ↔ F.Meets test (value.read F.domain σ)) ∧
      ((F.runtime does raises).Sends i σ (.past σ) ↔ ¬ F.Meets test (value.read F.domain σ)) ∧
      ((F.runtime does raises).Sends (.branchUnlessEqual target value test) σ (.past σ) ↔
        F.Meets test (value.read F.domain σ)) ∧
      ((F.runtime does raises).Sends (.branchUnlessEqual target value test) σ (.sent target σ) ↔
        ¬ F.Meets test (value.read F.domain σ))) ∧
    (test ∉ branchTests → Session.branchIf value test target = .error (.error (.noBranch value test)) ∧
      (BuildError.noBranch value test).kind = .build) := by
  constructor
  · intro htest
    have hsome : (Instr.branchIf? value test target).isSome := isSome_branchIf.mpr htest
    obtain ⟨i, hi⟩ := Option.isSome_iff_exists.mp hsome
    have hok : Session.branchIf value test target = .ok i := by rw [Session.branchIf, hi]
    have hmeets : (F.runtime does raises).Matches σ value test ↔
        F.Meets test (value.read F.domain σ) := Frame.matches_iff_meets htest
    simp only [← hmeets]
    exact ⟨i, hok, (Runtime.sends_branchIf hi).1, (Runtime.sends_branchIf hi).2,
      Runtime.sends_branchUnlessEqual.1, Runtime.sends_branchUnlessEqual.2⟩
  · intro htest
    have hnone : Instr.branchIf? value test target = none := by
      rw [← Option.not_isSome_iff_eq_none, isSome_branchIf]
      exact htest
    exact ⟨by rw [Session.branchIf, hnone], rfl⟩

/-- One module for all scopes, and no marker is true. -/
def Frame.flat : Frame := ⟨fun _ => 0, 0, fun v => [v], fun _ => false⟩

/-- A splat of a hash with a block in it. -/
def Operand.nested : Operand := .splat (.hash [(.symbol ⟨"k"⟩, .closure ⟨7⟩), (.var .self, .undefined)])

theorem sends_branchIf_iff_nested :
    (Operand.nil ∈ branchTests ∧ ∃ i, Session.branchIf .nested .nil ⟨"L", 0⟩ = .ok i ∧
      (Frame.flat.runtime (fun _ _ _ => True) fun _ _ _ => True).Sends i (fun _ => .nil)
        (.past fun _ => .nil)) ∧
    (Operand.symbol ⟨"k"⟩ ∉ branchTests ∧ Session.branchIf .nested (.symbol ⟨"k"⟩) ⟨"L", 0⟩ =
      .error (.error (.noBranch .nested (.symbol ⟨"k"⟩)))) := by
  have hnil : Operand.nil ∈ branchTests := by decide
  have hsymbol : Operand.symbol ⟨"k"⟩ ∉ branchTests := by decide
  refine ⟨⟨hnil, ?_⟩, hsymbol, ((sends_branchIf_iff .flat (fun _ _ _ => True) (fun _ _ _ => True)
    (fun _ => .nil) .nested (.symbol ⟨"k"⟩) ⟨"L", 0⟩).2 hsymbol).1⟩
  obtain ⟨i, hi, -, hpast, -⟩ := (sends_branchIf_iff .flat (fun _ _ _ => True) (fun _ _ _ => True)
    (fun _ => .nil) .nested .nil ⟨"L", 0⟩).1 hnil
  exact ⟨i, hi, hpast.mpr nofun⟩

end ScopeIR
