import ScopeIR.Checked
import ScopeIR.Operand.Basic

/-! Reading an operand from further inside: every named variable lies more static scopes up. -/

namespace ScopeIR

/-- Fails when the depth leaves 64 bits. -/
def Variable.deepen (n : UInt64) : Variable → Option Variable
  | .named v => (checkedAdd v.depth n).map fun d => .named { v with depth := d }
  | v => some v

namespace Operand

mutual

def deepen (n : UInt64) : Operand → Option Operand
  | .atom (.var v) => (v.deepen n).map fun v => .atom (.var v)
  | .atom a => some (.atom a)
  | .hash pairs => (deepenPairs n pairs).map .hash
  | .splat array => (deepen n array).map .splat

def deepenPairs (n : UInt64) :
    List (Operand × Operand) → Option (List (Operand × Operand))
  | [] => some []
  | (k, v) :: rest => do
    let k ← deepen n k
    let v ← deepen n v
    let rest ← deepenPairs n rest
    return (k, v) :: rest

end

end Operand

end ScopeIR
