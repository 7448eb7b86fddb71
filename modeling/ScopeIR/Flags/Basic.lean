import ScopeIR.Text.Quoted

/-! Sets of flags held as the bits of one word. Bits that stand for no declared flag are kept. -/

namespace ScopeIR

/-- An enumeration whose members are bit positions of one word. -/
class Flag (α : Type) where
  width : Nat
  members : List α
  position : α → Nat
  name : α → String

structure FlagSet (α : Type) [Flag α] where
  bits : BitVec (Flag.width α)

namespace FlagSet

variable {α : Type} [Flag α]

@[ext] theorem ext {s t : FlagSet α} (h : s.bits = t.bits) : s = t := by
  cases s; cases t; exact congrArg mk h

instance : DecidableEq (FlagSet α) := fun s t =>
  decidable_of_iff (s.bits = t.bits) ⟨ext, congrArg bits⟩

instance : EmptyCollection (FlagSet α) := ⟨⟨0⟩⟩

instance : Inhabited (FlagSet α) := ⟨∅⟩

instance : Union (FlagSet α) := ⟨fun s t => ⟨s.bits ||| t.bits⟩⟩

instance : Singleton α (FlagSet α) := ⟨fun f => ⟨BitVec.twoPow _ (Flag.position f)⟩⟩

instance : Insert α (FlagSet α) := ⟨fun f s => {f} ∪ s⟩

def contains (s : FlagSet α) (f : α) : Bool := s.bits.getLsbD (Flag.position f)

def ofList (fs : List α) : FlagSet α := fs.foldr insert ∅

/-- Every declared flag. -/
def declared : FlagSet α := ofList Flag.members

def ofNat (n : Nat) : FlagSet α := ⟨BitVec.ofNat _ n⟩

def toNat (s : FlagSet α) : Nat := s.bits.toNat

/-- Without the bits that stand for no declared flag. -/
def known (s : FlagSet α) : FlagSet α := ⟨s.bits &&& (declared : FlagSet α).bits⟩

/-- The bits that stand for no declared flag. -/
def unknown (s : FlagSet α) : FlagSet α := ⟨s.bits &&& ~~~(declared : FlagSet α).bits⟩

/-- Names in the order of declaration, then all unknown bits as one number. -/
def text (s : FlagSet α) : String :=
  let names := (Flag.members.filter s.contains).map Flag.name
  let names := if s.unknown = ∅ then names else names ++ ["0x" ++ Text.hex s.unknown.toNat]
  if names.isEmpty then "(empty)" else " | ".intercalate names

theorem bits_union (s t : FlagSet α) : (s ∪ t).bits = s.bits ||| t.bits := rfl

theorem union_assoc (s t u : FlagSet α) : s ∪ t ∪ u = s ∪ (t ∪ u) :=
  FlagSet.ext (BitVec.or_assoc ..)

theorem union_comm (s t : FlagSet α) : s ∪ t = t ∪ s :=
  FlagSet.ext (BitVec.or_comm ..)

theorem union_self (s : FlagSet α) : s ∪ s = s :=
  FlagSet.ext BitVec.or_self

theorem union_empty (s : FlagSet α) : s ∪ ∅ = s :=
  FlagSet.ext BitVec.or_zero

theorem union_union_comm (s t u v : FlagSet α) :
    s ∪ t ∪ (u ∪ v) = s ∪ u ∪ (t ∪ v) := by
  rw [union_assoc, union_assoc, ← union_assoc t u v, union_comm t u, union_assoc u t v]

theorem contains_empty (f : α) : (∅ : FlagSet α).contains f = false := BitVec.getLsbD_zero

theorem contains_union (s t : FlagSet α) (f : α) :
    (s ∪ t).contains f = (s.contains f || t.contains f) := by
  simp only [contains, bits_union, BitVec.getLsbD_or]

end FlagSet

end ScopeIR
