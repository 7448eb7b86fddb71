import ScopeIR.File.Codec
import ScopeIR.Operand.Basic

/-! The format of operands. -/

namespace ScopeIR

/-- The number of operands on the longest way into one. -/
def Operand.height : Operand → Nat
  | .atom _ => 0
  | .hash pairs => pairsHeight pairs + 1
  | .splat array => array.height + 1
where
  pairsHeight : List (Operand × Operand) → Nat
    | [] => 0
    | (k, v) :: rest => max (max k.height v.height) (pairsHeight rest)

namespace File

open Codec Variant

def symbol : Codec Symbol := text.map .mk Symbol.text

def scopeId : Codec ScopeId := u64.map .mk ScopeId.index

def label : Codec Label := (pair text u64).map (fun (s, i) => ⟨s, i⟩) (fun l => (l.stem, l.index))

def tempVar : Codec TempVar := choice [
  ⟨_, u64, .plain, fun | .plain i => some i | _ => none⟩,
  ⟨_, pair u64 u64, fun (c, i) => .ofClosure c i,
    fun | .ofClosure c i => some (c, i) | _ => none⟩,
  ⟨_, u64, .currentModule, fun | .currentModule i => some i | _ => none⟩]

def localVar : Codec LocalVar :=
  (pair symbol (pair u64 u64)).map (fun (n, d, o) => ⟨n, d, o⟩) (fun v => (v.name, v.depth, v.offset))

def var : Codec Variable := choice [
  ⟨_, tempVar, .temp, fun | .temp t => some t | _ => none⟩,
  ⟨_, localVar, .named, fun | .named v => some v | _ => none⟩,
  single .self]

/-- The format of operands of at most this height. A reader that goes deeper has used up its bytes,
because every level takes some. -/
def operandUpTo : (height : Nat) → Codec Operand
  | 0 => atoms ⟨fun _ => [], throw .outOfBytes⟩
  | height + 1 =>
    atoms ⟨fun o => (operandUpTo height).write o, fun bytes => (operandUpTo height).read bytes⟩
where
  atoms (part : Codec Operand) : Codec Operand := choice [
    single .nil,
    ⟨_, bool, .boolean, fun | .boolean b => some b | _ => none⟩,
    ⟨_, i64, fun n => .atom (.fixnum n), fun | .atom (.fixnum n) => some n | _ => none⟩,
    ⟨_, symbol, .symbol, fun | .symbol s => some s | _ => none⟩,
    ⟨_, list u8, fun b => .atom (.string b), fun | .atom (.string b) => some b | _ => none⟩,
    ⟨_, list (pair part part), .hash, fun | .hash ps => some ps | _ => none⟩,
    ⟨_, part, .splat, fun | .splat a => some a | _ => none⟩,
    single .undefined,
    single .currentScope,
    ⟨_, u64, .scopeModule, fun | .scopeModule n => some n | _ => none⟩,
    single .nullBlock,
    single .objectClass,
    ⟨_, scopeId, .closure, fun | .closure id => some id | _ => none⟩,
    ⟨_, var, .var, fun | .var v => some v | _ => none⟩]

def operand : Codec Operand where
  write o := (operandUpTo o.height).write o
  read bytes := (operandUpTo bytes.length).read bytes

end File

end ScopeIR
