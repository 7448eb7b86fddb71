/-! Word arithmetic that fails instead of wrapping around. -/

namespace ScopeIR

def checkedAdd (a b : UInt64) : Option UInt64 :=
  if a.toNat + b.toNat < UInt64.size then some (a + b) else none

theorem checkedAdd_eq_some_iff (a b c : UInt64) :
    checkedAdd a b = some c ↔ a.toNat + b.toNat = c.toNat := by
  rw [checkedAdd]
  split
  · next h =>
    rw [Option.some.injEq, ← UInt64.toNat_inj, UInt64.toNat_add, Nat.mod_eq_of_lt h]
  · next h =>
    have := c.toNat_lt_size
    constructor
    · intro hn; cases hn
    · intro hn; omega

/-- Counting up fails only at the end of the word. -/
theorem checkedAdd_one_eq_none_iff (n : UInt64) :
    checkedAdd n 1 = none ↔ n.toNat + 1 = UInt64.size := by
  have hlt := n.toNat_lt_size
  have hone : (1 : UInt64).toNat = 1 := rfl
  rw [checkedAdd]
  split
  · next h =>
    constructor
    · intro hn; cases hn
    · intro hn; omega
  · next h =>
    constructor
    · intro _; omega
    · intro _; rfl

/-- The line after `n`, unless `n` is the last one a line number can hold. -/
def nextLine (n : Int32) : Option Int32 :=
  if n = Int32.maxValue then none else some (n + 1)

end ScopeIR
