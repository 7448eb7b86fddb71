import ScopeIR.Text.Utf8

/-! Values that instructions name: variables, labels, constants and what is built from them. -/

namespace ScopeIR

structure Symbol where
  text : String
  deriving DecidableEq, Inhabited

/-- Position of a scope in its registry. -/
structure ScopeId where
  index : UInt64
  deriving DecidableEq, Inhabited

/-- A jump target. Labels of one scope differ in their index, whatever their stem. -/
structure Label where
  stem : String
  index : UInt64
  deriving DecidableEq, Inhabited

/-- The rescuer of code that no handler covers. -/
def Label.unrescued : Label := ⟨"UNRESCUED_REGION", 0⟩

inductive TempVar where
  | plain (index : UInt64)
  | ofClosure (closure : UInt64) (index : UInt64)
  | currentModule (index : UInt64)
  deriving DecidableEq, Inhabited

def TempVar.index : TempVar → UInt64
  | .plain i => i
  | .ofClosure _ i => i
  | .currentModule i => i

/-- A named variable `depth` static scopes above the scope that reads it. -/
structure LocalVar where
  name : Symbol
  depth : UInt64
  offset : UInt64
  deriving DecidableEq, Inhabited

inductive Variable where
  | temp (t : TempVar)
  | named (v : LocalVar)
  | self
  deriving DecidableEq, Inhabited

def Variable.isTemp : Variable → Bool
  | .temp _ => true
  | _ => false

/-- An operand without parts. -/
inductive Atom where
  | nil
  | boolean (b : Bool)
  | fixnum (n : Int64)
  | symbol (s : Symbol)
  | string (bytes : List UInt8)
  | undefined
  | currentScope
  /-- The module `depth` static scopes up, known when the code is built. -/
  | scopeModule (depth : UInt64)
  | nullBlock
  | objectClass
  | closure (id : ScopeId)
  | var (v : Variable)
  deriving DecidableEq, Inhabited

inductive Operand where
  | atom (a : Atom)
  | hash (pairs : List (Operand × Operand))
  | splat (array : Operand)
  deriving Inhabited

instance : Coe Atom Operand := ⟨.atom⟩

instance : Coe Variable Operand := ⟨fun v => .atom (.var v)⟩

namespace Operand

@[match_pattern] abbrev nil : Operand := .atom .nil

@[match_pattern] abbrev boolean (b : Bool) : Operand := .atom (.boolean b)

@[match_pattern] abbrev undefined : Operand := .atom .undefined

@[match_pattern] abbrev symbol (s : Symbol) : Operand := .atom (.symbol s)

@[match_pattern] abbrev currentScope : Operand := .atom .currentScope

@[match_pattern] abbrev scopeModule (depth : UInt64) : Operand := .atom (.scopeModule depth)

@[match_pattern] abbrev nullBlock : Operand := .atom .nullBlock

@[match_pattern] abbrev objectClass : Operand := .atom .objectClass

@[match_pattern] abbrev closure (id : ScopeId) : Operand := .atom (.closure id)

@[match_pattern] abbrev var (v : Variable) : Operand := .atom (.var v)

mutual

def decEq : (a b : Operand) → Decidable (a = b)
  | .atom a, .atom b => decidable_of_iff (a = b) (by simp)
  | .hash ps, .hash qs => @decidable_of_iff _ (ps = qs) (by simp) (decEqPairs ps qs)
  | .splat a, .splat b => @decidable_of_iff _ (a = b) (by simp) (decEq a b)
  | .atom _, .hash _ | .atom _, .splat _ | .hash _, .atom _ | .hash _, .splat _
  | .splat _, .atom _ | .splat _, .hash _ => isFalse (by simp)

def decEqPairs : (ps qs : List (Operand × Operand)) → Decidable (ps = qs)
  | [], [] => isTrue rfl
  | (k, v) :: ps, (l, w) :: qs =>
    have := decEq k l
    have := decEq v w
    have := decEqPairs ps qs
    decidable_of_iff ((k = l ∧ v = w) ∧ ps = qs) (by simp)
  | [], _ :: _ | _ :: _, [] => isFalse (by simp)

end

instance : DecidableEq Operand := decEq

/-- Known to be true before the program runs. -/
def isTruthy : Operand → Bool
  | .boolean b => b
  | .atom (.fixnum _) | .atom (.symbol _) | .atom (.string _) | .atom .objectClass
  | .atom (.scopeModule _) => true
  | _ => false

/-- Known to be false before the program runs. -/
def isFalsey : Operand → Bool
  | .nil | .boolean false => true
  | _ => false

def var? : Operand → Option Variable
  | .var v => some v
  | _ => none

/-- The string constant `s`. -/
def ofString (s : String) : Operand := .atom (.string (Text.Utf8.encode s.toList))

mutual

/-- The operand with every variable in it replaced by its image. -/
def mapVars (f : Variable → Variable) : Operand → Operand
  | .atom (.var v) => .atom (.var (f v))
  | .atom a => .atom a
  | .hash pairs => .hash (mapPairs f pairs)
  | .splat array => .splat (mapVars f array)

def mapPairs (f : Variable → Variable) :
    List (Operand × Operand) → List (Operand × Operand)
  | [] => []
  | (k, v) :: rest => (mapVars f k, mapVars f v) :: mapPairs f rest

end

end Operand

end ScopeIR
