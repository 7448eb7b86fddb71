import ScopeIR.Diagnostic
import ScopeIR.File.Archive
import ScopeIR.Proofs.Format

/-! Archives and their bytes: every archive can be read back, nothing else denotes it, and a part of its
bytes lacks bytes. -/

namespace ScopeIR

variable {α : Type}

/-- A text whose bytes a word can count. -/
def TextStorable (s : String) : Prop := (Text.Utf8.encode s.toList).length < UInt64.size

theorem textStorable_of_length {s : String} (h : s.toList.length < 2 ^ 62) : TextStorable s :=
  Nat.lt_of_le_of_lt (Text.Utf8.length_encode_le s.toList) (Nat.mul_lt_mul_of_pos_left h (by decide))

/-- A list that a word can count, of elements that can be stored. -/
def AllStorable (P : α → Prop) (as : List α) : Prop := as.length < UInt64.size ∧ ∀ a ∈ as, P a

def Symbol.Storable (s : Symbol) : Prop := TextStorable s.text

def Label.Storable (l : Label) : Prop := TextStorable l.stem

def LocalVar.Storable (v : LocalVar) : Prop := v.name.Storable

def Variable.Storable : Variable → Prop
  | .named v => v.Storable
  | _ => True

def Atom.Storable : Atom → Prop
  | .symbol s => s.Storable
  | .string bytes => bytes.length < UInt64.size
  | .var v => v.Storable
  | _ => True

def Operand.Storable : Operand → Prop
  | .atom a => a.Storable
  | .hash pairs => pairs.length < UInt64.size ∧ PairsStorable pairs
  | .splat array => array.Storable
where
  PairsStorable : List (Operand × Operand) → Prop
    | [] => True
    | (k, v) :: rest => (k.Storable ∧ v.Storable) ∧ PairsStorable rest

def Parameter.Storable : Parameter → Prop
  | .keyword key => key.Storable
  | _ => True

def Call.Storable (c : Call) : Prop :=
  (∀ r ∈ c.result, r.Storable) ∧ c.name.Storable ∧ c.receiver.Storable ∧
    AllStorable Operand.Storable c.args ∧ c.block.Storable

def ZSuper.Storable (z : ZSuper) : Prop :=
  z.result.Storable ∧ z.receiver.Storable ∧ AllStorable Operand.Storable z.args ∧
    z.block.Storable

def TracePoint.Storable (t : TracePoint) : Prop :=
  t.module.Storable ∧ (∀ m ∈ t.method, m.Storable) ∧ TextStorable t.file

def Instr.Storable : Instr → Prop
  | .label l | .jump l | .regionStart l => l.Storable
  | .branch _ target value test => target.Storable ∧ value.Storable ∧ ∀ o ∈ test, o.Storable
  | .tracePoint t => t.Storable
  | .copy r value => r.Storable ∧ value.Storable
  | .call c => c.Storable
  | .zsuper z => z.Storable
  | .aliasMethod new old => new.Storable ∧ old.Storable
  | .searchConst r o name _ | .searchModuleConst r o name _ | .getClassVar r o name =>
    r.Storable ∧ o.Storable ∧ name.Storable
  | .classVarModule r start object => r.Storable ∧ start.Storable ∧ ∀ o ∈ object, o.Storable
  | .putClassVar container name value => container.Storable ∧ name.Storable ∧ value.Storable
  | .getGlobal r name => r.Storable ∧ name.Storable
  | .putGlobal name value => name.Storable ∧ value.Storable
  | .helperCall r _ args => r.Storable ∧ AllStorable Operand.Storable args
  | .loadImplicitClosure r | .receiveException r => r.Storable
  | .receive r parameter => r.Storable ∧ parameter.Storable
  | .raise value | .ret value | .breakOut value _ => value.Storable
  | .nonlocalReturn value method => value.Storable ∧ ∀ m ∈ method, m.Storable
  | .nop | .lineNumber .. | .regionEnd | .threadPoll | .checkLocalJump _ => True

structure Scope.Storable (s : Scope) : Prop where
  name : s.name.Storable
  file : TextStorable s.file
  closures : s.closures.length < UInt64.size
  instrs : ∀ is ∈ s.instrs, AllStorable Instr.Storable is

/-- No list and no text in the archive is longer than a word can say, as none in memory is. -/
def Archive.Storable (a : Archive) : Prop := AllStorable Scope.Storable a.scopes

/-- The operand can be read going no deeper than this. -/
def Operand.StorableUpTo : (height : Nat) → Operand → Prop
  | _, .atom a => a.Storable
  | 0, .hash pairs => pairs = []
  | 0, .splat _ => False
  | height + 1, .hash pairs =>
    pairs.length < UInt64.size ∧ ∀ p ∈ pairs, p.1.StorableUpTo height ∧ p.2.StorableUpTo height
  | height + 1, .splat array => array.StorableUpTo height

theorem Operand.pairsStorable_iff {pairs : List (Operand × Operand)} :
    Storable.PairsStorable pairs ↔ ∀ p ∈ pairs, p.1.Storable ∧ p.2.Storable := by
  induction pairs with
  | nil => simp [Storable.PairsStorable]
  | cons p pairs ih => rw [Storable.PairsStorable, ih, List.forall_mem_cons]

theorem Operand.pairsHeight_le_iff {pairs : List (Operand × Operand)} {n : Nat} :
    height.pairsHeight pairs ≤ n ↔ ∀ p ∈ pairs, p.1.height ≤ n ∧ p.2.height ≤ n := by
  induction pairs with
  | nil => simp [height.pairsHeight]
  | cons p pairs ih =>
    rw [height.pairsHeight, List.forall_mem_cons, ← ih, Nat.max_le, Nat.max_le]

namespace File

open Codec

theorem length_writeNat (width n : Nat) : (writeNat width n).length = width := by
  induction width generalizing n with
  | zero => rfl
  | succ width ih => rw [writeNat, List.length_cons, ih]

theorem denotes_symbol : symbol.Denotes Symbol.Storable :=
  denotes_text.map (fun _ => rfl) fun _ => rfl

theorem denotes_scopeId : scopeId.Denotes fun _ => True :=
  denotes_u64.map (fun _ => rfl) fun _ => rfl

theorem denotes_label : label.Denotes Label.Storable :=
  ((denotes_text.pair denotes_u64).map (fun _ => rfl) fun _ => rfl).congr fun _ =>
    and_iff_left trivial

theorem denotes_tempVar : tempVar.Denotes fun _ => True := by
  refine AreVariants.denotes_choice ⟨?_, ?_, ?_, by decide⟩ ?_
  · intro a
    cases a <;> simp
  · simp
  · simp
  · simp only [List.forall_mem_cons]
    exact ⟨denotes_u64, (denotes_u64.pair denotes_u64).congr fun _ => and_self_iff, denotes_u64,
      List.forall_mem_nil _⟩

theorem denotes_localVar : localVar.Denotes LocalVar.Storable :=
  ((denotes_symbol.pair (denotes_u64.pair denotes_u64)).map (fun _ => rfl) fun _ => rfl).congr
    fun _ => and_iff_left ⟨trivial, trivial⟩

theorem denotes_var : var.Denotes Variable.Storable := by
  refine AreVariants.denotes_choice ⟨?_, ?_, ?_, by decide⟩ ?_
  · intro a
    cases a <;> simp [Variant.single]
  · simp [Variant.single]
  · simp [Variant.single]
  · simp only [List.forall_mem_cons]
    exact ⟨denotes_tempVar, denotes_localVar, denotes_unit, List.forall_mem_nil _⟩

section Operands

variable (part : Codec Operand) {P D : Operand → Prop}

/-- Operands whose parts the format of parts denotes. -/
theorem denotes_atoms (hpart : part.Denotes P)
    (hatom : ∀ a, D (.atom a) ↔ a.Storable)
    (hhash : ∀ ps, D (.hash ps) ↔ ps.length < UInt64.size ∧ ∀ p ∈ ps, P p.1 ∧ P p.2)
    (hsplat : ∀ a, D (.splat a) ↔ P a) : (operandUpTo.atoms part).Denotes D := by
  refine AreVariants.denotes_choice ⟨?_, ?_, ?_, Nat.le_of_ble_eq_true rfl⟩ ?_
  · intro o
    match o with
    | .atom a =>
      cases a with
      | nil => exact exists_made 0 rfl () rfl
      | boolean b => exact exists_made 1 rfl b rfl
      | fixnum n => exact exists_made 2 rfl n rfl
      | symbol s => exact exists_made 3 rfl s rfl
      | string b => exact exists_made 4 rfl b rfl
      | undefined => exact exists_made 7 rfl () rfl
      | currentScope => exact exists_made 8 rfl () rfl
      | scopeModule n => exact exists_made 9 rfl n rfl
      | nullBlock => exact exists_made 10 rfl () rfl
      | objectClass => exact exists_made 11 rfl () rfl
      | closure id => exact exists_made 12 rfl id rfl
      | var v => exact exists_made 13 rfl v rfl
    | .hash pairs => exact exists_made 5 rfl pairs rfl
    | .splat array => exact exists_made 6 rfl array rfl
  · repeat'
      first
      | exact fun _ => rfl
      | exact fun _ => if_pos rfl
      | exact List.forall_mem_nil _
      | refine List.forall_mem_cons.mpr ⟨?_, ?_⟩
  · repeat'
      first
      | exact fun _ => rfl
      | exact fun _ => if_neg fun h => nomatch h
      | exact List.forall_mem_nil _
      | constructor
      | refine List.forall_mem_cons.mpr ⟨?_, ?_⟩
  · simp only [List.forall_mem_cons, Variant.single, hatom, hhash, hsplat]
    have hbytes := denotes_u8.list.congr fun bytes => and_iff_left fun _ _ => trivial
    exact ⟨denotes_unit, denotes_bool, denotes_i64, denotes_symbol, hbytes,
      (hpart.pair hpart).list, hpart, denotes_unit, denotes_unit, denotes_u64, denotes_unit,
      denotes_unit, denotes_scopeId, denotes_var, List.forall_mem_nil _⟩

theorem denotes_operandUpTo (height : Nat) :
    (operandUpTo height).Denotes (Operand.StorableUpTo height) := by
  induction height with
  | zero =>
    have hpart : (⟨fun _ => [], throw .outOfBytes⟩ : Codec Operand).Denotes fun _ => False :=
      ⟨⟨fun h => (nomatch h), fun h => h.1.elim⟩, Reader.extends_throw _⟩
    refine denotes_atoms _ hpart (fun _ => Iff.rfl) (fun pairs => ?_) fun _ => Iff.rfl
    constructor
    · rintro rfl
      exact ⟨by decide, List.forall_mem_nil _⟩
    · rintro ⟨-, h⟩
      exact List.eq_nil_iff_forall_not_mem.mpr fun p hp => (h p hp).1
  | succ height ih =>
    exact denotes_atoms ⟨_, _⟩ ⟨ih.read_iff, ih.stable⟩ (fun _ => Iff.rfl)
      (fun _ => Iff.rfl) fun _ => Iff.rfl

theorem extends_atoms (part part' : Codec Operand) (h : part.read.Extends part'.read) :
    (operandUpTo.atoms part).read.Extends (operandUpTo.atoms part').read := by
  have hread : ∀ {alt : Variant Operand} {D}, alt.codec.Denotes D → alt.read.Extends alt.read :=
    fun h => h.stable.bind fun _ => Reader.extends_pure _
  refine extends_choice ?_
  refine .cons (hread denotes_unit) <| .cons (hread denotes_bool) <| .cons (hread denotes_i64) <|
    .cons (hread denotes_symbol) <| .cons (hread denotes_u8.list) <| .cons ?_ <| .cons ?_ <|
    .cons (hread denotes_unit) <| .cons (hread denotes_unit) <| .cons (hread denotes_u64) <|
    .cons (hread denotes_unit) <| .cons (hread denotes_unit) <| .cons (hread denotes_scopeId) <|
    .cons (hread denotes_var) .nil
  · exact (extends_list (extends_pair h h)).bind fun _ => Reader.extends_pure _
  · exact h.bind fun _ => Reader.extends_pure _

/-- A reader that may go deeper finds the same. -/
theorem extends_operandUpTo {m n : Nat} (h : m ≤ n) :
    (operandUpTo m).read.Extends (operandUpTo n).read := by
  induction m generalizing n with
  | zero =>
    cases n with
    | zero => exact (denotes_operandUpTo 0).stable
    | succ n => exact extends_atoms _ ⟨_, _⟩ (Reader.extends_outOfBytes _)
  | succ m ih =>
    cases n with
    | zero => exact absurd h (Nat.not_succ_le_zero m)
    | succ n =>
      exact extends_atoms ⟨_, _⟩ ⟨_, _⟩ (ih (Nat.le_of_succ_le_succ h))

theorem storableUpTo_of_storable {o : Operand} {height : Nat} (h : o.Storable)
    (hheight : o.height ≤ height) : o.StorableUpTo height := by
  induction height generalizing o with
  | zero =>
    cases o with
    | atom a => exact h
    | hash pairs => exact absurd hheight (Nat.not_succ_le_zero _)
    | splat array => exact absurd hheight (Nat.not_succ_le_zero _)
  | succ height ih =>
    cases o with
    | atom a => exact h
    | hash pairs =>
      have hpairs := Operand.pairsStorable_iff.mp h.2
      have hheights := Operand.pairsHeight_le_iff.mp (Nat.le_of_succ_le_succ hheight)
      refine ⟨h.1, fun p hp => ⟨?_, ?_⟩⟩
      · exact ih (hpairs p hp).1 (hheights p hp).1
      · exact ih (hpairs p hp).2 (hheights p hp).2
    | splat array => exact ih (o := array) h (Nat.le_of_succ_le_succ hheight)

theorem storable_of_storableUpTo {o : Operand} {height : Nat} (h : o.StorableUpTo height) :
    o.Storable := by
  induction height generalizing o with
  | zero =>
    cases o with
    | atom a => exact h
    | hash pairs =>
      obtain rfl : pairs = [] := h
      exact ⟨by decide, trivial⟩
    | splat array => exact h.elim
  | succ height ih =>
    cases o with
    | atom a => exact h
    | hash pairs =>
      exact ⟨h.1, Operand.pairsStorable_iff.mpr fun p hp => (h.2 p hp).imp ih ih⟩
    | splat array => exact ih (o := array) h

theorem write_hash {part : Codec Operand} {pairs : List (Operand × Operand)} :
    (operandUpTo.atoms part).write (.hash pairs) =
      writeNat 4 5 ++ (list (pair part part)).write pairs := rfl

theorem write_splat {part : Codec Operand} {array : Operand} :
    (operandUpTo.atoms part).write (.splat array) = writeNat 4 6 ++ part.write array := rfl

theorem write_atom {part part' : Codec Operand} {a : Atom} :
    (operandUpTo.atoms part).write (.atom a) = (operandUpTo.atoms part').write (.atom a) := by
  cases a <;> rfl

/-- The bytes of an operand do not depend on how deep its writer may go, if that is deep enough. -/
theorem write_eq_of_storableUpTo {o : Operand} {m n : Nat} (hm : o.StorableUpTo m)
    (hn : o.StorableUpTo n) :
    (operandUpTo m).write o = (operandUpTo n).write o := by
  induction m generalizing o n with
  | zero =>
    cases o with
    | atom a => cases n <;> exact write_atom
    | hash pairs =>
      obtain rfl : pairs = [] := hm
      cases n <;> rfl
    | splat array => exact hm.elim
  | succ m ih =>
    cases n with
    | zero =>
      cases o with
      | atom a => exact write_atom
      | hash pairs =>
        obtain rfl : pairs = [] := hn
        rfl
      | splat array => exact hn.elim
    | succ n =>
      cases o with
      | atom a => exact write_atom
      | hash pairs =>
        refine congrArg (_ ++ ·) (congrArg (_ ++ ·) (List.flatMap_congr fun p hp => ?_))
        exact congrArg₂ (· ++ ·) (ih (hm.2 p hp).1 (hn.2 p hp).1) (ih (hm.2 p hp).2 (hn.2 p hp).2)
      | splat array => exact congrArg (_ ++ ·) (ih (o := array) hm hn)

/-- Every level of an operand takes some bytes. -/
theorem height_le_length {o : Operand} {height : Nat} (h : o.StorableUpTo height) :
    o.height ≤ ((operandUpTo height).write o).length := by
  induction height generalizing o with
  | zero =>
    cases o with
    | atom a => exact Nat.zero_le _
    | hash pairs =>
      obtain rfl : pairs = [] := h
      decide
    | splat array => exact h.elim
  | succ height ih =>
    cases o with
    | atom a => exact Nat.zero_le _
    | hash pairs =>
      have hwrite : (operandUpTo (height + 1)).write (.hash pairs) =
          writeNat 4 5 ++ (u64.write pairs.length.toUInt64 ++ pairs.flatMap fun p =>
            (operandUpTo height).write p.1 ++ (operandUpTo height).write p.2) := write_hash
      -- the deepest pair is among those that are written, and its bytes are not the only ones
      have hpairs : Operand.height.pairsHeight pairs ≤ (pairs.flatMap fun p =>
          (operandUpTo height).write p.1 ++ (operandUpTo height).write p.2).length := by
        refine Operand.pairsHeight_le_iff.mpr fun p hp => ?_
        have hkey := ih (h.2 p hp).1
        have hvalue := ih (h.2 p hp).2
        have hlength := (List.sublist_flatten_of_mem (List.mem_map_of_mem
          (f := fun p => (operandUpTo height).write p.1 ++ (operandUpTo height).write p.2)
          hp)).length_le
        rw [List.length_append] at hlength
        rw [List.flatMap_def]
        omega
      rw [hwrite, Operand.height, List.length_append, List.length_append, length_writeNat]
      omega
    | splat array =>
      have hwrite : (operandUpTo (height + 1)).write (.splat array) =
          writeNat 4 6 ++ (operandUpTo height).write array := write_splat
      have harray := ih (o := array) h
      rw [hwrite, Operand.height, List.length_append, length_writeNat]
      omega

end Operands

theorem denotes_operand : operand.Denotes Operand.Storable where
  read_iff := by
    intro bytes rest o
    have hwrite : ∀ {n}, o.StorableUpTo n → (operandUpTo n).write o = operand.write o :=
      fun h => write_eq_of_storableUpTo h
        (storableUpTo_of_storable (storable_of_storableUpTo h) (Nat.le_refl _))
    constructor
    · intro h
      obtain ⟨hstorable, hbytes⟩ := (denotes_operandUpTo _).read_iff.mp h
      rw [hwrite hstorable] at hbytes
      exact ⟨storable_of_storableUpTo hstorable, hbytes⟩
    · rintro ⟨hstorable, hbytes⟩
      have hheight := height_le_length (storableUpTo_of_storable hstorable (Nat.le_refl _))
      have hlength := congrArg List.length hbytes
      rw [List.length_append] at hlength
      have hupTo : o.StorableUpTo bytes.length :=
        storableUpTo_of_storable hstorable (Nat.le_trans hheight (hlength ▸ Nat.le_add_right _ _))
      refine (denotes_operandUpTo _).read_iff.mpr ⟨hupTo, ?_⟩
      rw [hwrite hupTo, hbytes]
  stable := by
    have hextends : ∀ bytes more : List UInt8, (operandUpTo bytes.length).read.Extends
        (operandUpTo (bytes ++ more).length).read :=
      fun bytes more => extends_operandUpTo (by rw [List.length_append]; exact Nat.le_add_right _ _)
    exact ⟨fun h => (hextends _ _).ok h, fun h he => (hextends _ _).error h he⟩

theorem denotes_parameter : parameter.Denotes Parameter.Storable := by
  refine AreVariants.denotes_choice ⟨?_, ?_, ?_, by decide⟩ ?_
  · intro a
    cases a <;> simp [Variant.single]
  · simp [Variant.single]
  · simp [Variant.single]
  · simp only [List.forall_mem_cons]
    exact ⟨denotes_u64, denotes_u64, denotes_u64, denotes_unit, denotes_symbol, denotes_unit,
      List.forall_mem_nil _⟩

theorem denotes_branchOp : branchOp.Denotes fun _ => True :=
  denotes_enum (fun a => by cases a <;> decide) (by decide) (by decide)

theorem denotes_callType : callType.Denotes fun _ => True :=
  denotes_enum (fun a => by cases a <;> decide) (by decide) (by decide)

theorem denotes_traceEvent : traceEvent.Denotes fun _ => True :=
  denotes_enum (fun a => by cases a; decide) (by decide) (by decide)

theorem denotes_helper : helper.Denotes fun _ => True :=
  denotes_enum (fun a => by cases a; decide) (by decide) (by decide)

theorem denotes_scopeKind : scopeKind.Denotes fun _ => True :=
  denotes_enum (fun a => by cases a <;> decide) (by decide) (by decide)

theorem denotes_operands : (list operand).Denotes (AllStorable Operand.Storable) :=
  denotes_operand.list

theorem denotes_call : call.Denotes Call.Storable :=
  ((denotes_callType.pair <| denotes_var.option.pair <| denotes_symbol.pair <|
    denotes_operand.pair <| denotes_operands.pair <| denotes_operand.pair <|
    (denotes_flags (α := CallFlag) rfl).pair denotes_bool).map (fun _ => rfl) fun _ => rfl).congr
    fun c => by simp [Call.Storable]

theorem denotes_zsuper : zsuper.Denotes ZSuper.Storable :=
  ((denotes_scopeId.pair <| denotes_var.pair <| denotes_operand.pair <| denotes_operands.pair <|
    denotes_operand.pair <| (denotes_flags (α := CallFlag) rfl).pair denotes_bool).map
    (fun _ => rfl) fun _ => rfl).congr fun z => by simp [ZSuper.Storable]

theorem denotes_tracePoint : tracePoint.Denotes TracePoint.Storable :=
  ((denotes_traceEvent.pair <| denotes_var.pair <| denotes_symbol.option.pair <|
    denotes_text.pair denotes_i32).map (fun _ => rfl) fun _ => rfl).congr
    fun t => by simp [TracePoint.Storable, TextStorable]

theorem denotes_instr : instr.Denotes Instr.Storable := by
  refine AreVariants.denotes_choice ⟨?_, ?_, ?_, by decide⟩ ?_
  · intro i
    cases i with
    | label l => exact exists_made 0 rfl l rfl
    | jump l => exact exists_made 1 rfl l rfl
    | nop => exact exists_made 2 rfl () rfl
    | branch op target value test => exact exists_made 3 rfl (op, target, value, test) rfl
    | lineNumber line coverage => exact exists_made 4 rfl (line, coverage) rfl
    | tracePoint t => exact exists_made 5 rfl t rfl
    | copy r value => exact exists_made 6 rfl (r, value) rfl
    | call c => exact exists_made 7 rfl c rfl
    | zsuper z => exact exists_made 8 rfl z rfl
    | aliasMethod new old => exact exists_made 9 rfl (new, old) rfl
    | searchConst r start name only => exact exists_made 10 rfl (r, start, name, only) rfl
    | searchModuleConst r module name only => exact exists_made 11 rfl (r, module, name, only) rfl
    | classVarModule r start object => exact exists_made 12 rfl (r, start, object) rfl
    | getClassVar r container name => exact exists_made 13 rfl (r, container, name) rfl
    | putClassVar container name value => exact exists_made 14 rfl (container, name, value) rfl
    | getGlobal r name => exact exists_made 15 rfl (r, name) rfl
    | putGlobal name value => exact exists_made 16 rfl (name, value) rfl
    | helperCall r helper args => exact exists_made 17 rfl (r, helper, args) rfl
    | loadImplicitClosure r => exact exists_made 18 rfl r rfl
    | receive r parameter => exact exists_made 19 rfl (r, parameter) rfl
    | regionStart l => exact exists_made 20 rfl l rfl
    | regionEnd => exact exists_made 21 rfl () rfl
    | receiveException r => exact exists_made 22 rfl r rfl
    | raise value => exact exists_made 23 rfl value rfl
    | threadPoll => exact exists_made 24 rfl () rfl
    | checkLocalJump b => exact exists_made 25 rfl b rfl
    | ret value => exact exists_made 26 rfl value rfl
    | nonlocalReturn value method => exact exists_made 27 rfl (value, method) rfl
    | breakOut value scope => exact exists_made 28 rfl (value, scope) rfl
  · repeat'
      first
      | exact fun _ => rfl
      | exact List.forall_mem_nil _
      | refine List.forall_mem_cons.mpr ⟨?_, ?_⟩
  · repeat'
      first
      | exact fun _ => rfl
      | exact List.forall_mem_nil _
      | constructor
      | refine List.forall_mem_cons.mpr ⟨?_, ?_⟩
  · simp only [List.forall_mem_cons]
    have hbranch := denotes_branchOp.pair <| denotes_label.pair <|
      denotes_operand.pair denotes_operand.option
    have hline := denotes_i32.pair (denotes_flags (α := CoverageMode) rfl)
    have hsearch := denotes_var.pair <| denotes_operand.pair <| denotes_symbol.pair denotes_bool
    have hhelper := denotes_var.pair <| denotes_helper.pair denotes_operands
    exact ⟨denotes_label, denotes_label, denotes_unit,
      hbranch.congr fun _ => and_iff_right trivial,
      hline.congr fun _ => and_iff_left trivial, denotes_tracePoint,
      denotes_var.pair denotes_operand, denotes_call, denotes_zsuper,
      denotes_operand.pair denotes_operand,
      hsearch.congr fun _ => by simp [Instr.Storable], hsearch.congr fun _ => by simp [Instr.Storable],
      denotes_var.pair (denotes_operand.pair denotes_operand.option),
      denotes_var.pair (denotes_operand.pair denotes_symbol),
      denotes_operand.pair (denotes_symbol.pair denotes_operand),
      denotes_var.pair denotes_symbol, denotes_symbol.pair denotes_operand,
      hhelper.congr fun _ => by simp [Instr.Storable], denotes_var,
      denotes_var.pair denotes_parameter, denotes_label, denotes_unit, denotes_var,
      denotes_operand, denotes_unit, denotes_bool, denotes_operand,
      denotes_operand.pair denotes_symbol.option,
      (denotes_operand.pair denotes_scopeId).congr fun _ => and_iff_left trivial,
      List.forall_mem_nil _⟩

theorem denotes_scope : scope.Denotes Scope.Storable := by
  have hparts := denotes_scopeId.pair <| denotes_scopeKind.pair <| denotes_symbol.pair <|
    denotes_text.pair <| denotes_i32.pair <| denotes_scopeId.option.pair <|
    denotes_scopeId.list.pair <| denotes_u64.option.pair <| denotes_bool.pair <|
    (denotes_flags (α := ScopeFlag) rfl).pair <| denotes_u64.pair <| denotes_u64.pair <|
    (Codec.Denotes.list denotes_instr).option
  refine (hparts.map (fun _ => rfl) fun _ => rfl).congr fun s => ?_
  constructor
  · rintro ⟨-, -, hname, hfile, -, -, ⟨hclosures, -⟩, -, -, -, -, -, hinstrs⟩
    exact ⟨hname, hfile, hclosures, hinstrs⟩
  · intro h
    exact ⟨trivial, trivial, h.name, h.file, trivial, fun _ _ => trivial,
      ⟨h.closures, fun _ _ => trivial⟩, fun _ _ => trivial, trivial, trivial, trivial, trivial,
      h.instrs⟩

theorem denotes_archive : archive.Denotes Archive.Storable :=
  ((denotes_u32.pair (Codec.Denotes.list denotes_scope)).map (fun _ => rfl) fun _ => rfl).congr
    fun _ => and_iff_right trivial

end File

namespace Archive

open File Reader

theorem read_eq_ok_iff {bytes rest : List UInt8} {a : Archive} :
    Archive.read bytes = .ok (a, rest) ↔
      (a.version = currentVersion ∧ a.Storable) ∧ bytes = a.write ++ rest := by
  simp only [Archive.read, bind_eq_ok_iff, Codec.Denotes.read_iff denotes_archive]
  constructor
  · rintro ⟨b, _, ⟨hstorable, rfl⟩, hb⟩
    split at hb
    · cases hb
    · next hversion =>
      obtain ⟨rfl, rfl⟩ := pure_eq_ok_iff.mp hb
      exact ⟨⟨not_not.mp hversion, hstorable⟩, rfl⟩
  · rintro ⟨⟨hversion, hstorable⟩, rfl⟩
    refine ⟨a, rest, ⟨hstorable, rfl⟩, ?_⟩
    rw [if_neg (not_not.mpr hversion)]
    rfl

theorem extends_read : Reader.Extends Archive.read Archive.read := by
  refine Reader.Extends.bind (Codec.Denotes.stable denotes_archive) fun a => ?_
  split
  · exact extends_throw _
  · exact extends_pure a

/-- An archive is read back as it was written, and what follows it is left over. -/
theorem read_write {a : Archive} (hversion : a.version = currentVersion) (hstorable : a.Storable)
    (rest : List UInt8) : Archive.read (a.write ++ rest) = .ok (a, rest) :=
  Iff.mpr read_eq_ok_iff ⟨⟨hversion, hstorable⟩, rfl⟩

/-- The version comes first. -/
theorem write_length_pos (a : Archive) : 0 < a.write.length := by
  have hwrite : a.write =
      writeNat 4 a.version.toNat ++ (File.Codec.list File.scope).write a.scopes := rfl
  rw [hwrite, List.length_append, length_writeNat]
  omega

/-- Operands inside of each other, a flag without a name and a letter of two bytes. -/
def nestedHash : Archive := ofScopes [{
  id := ⟨0⟩, kind := .method, name := ⟨"naïve"⟩, file := "t.rb", line := -1, parent := none
  closures := [⟨3⟩], closureId := none, refined := true, flags := ⟨0x80000001⟩
  nextLabel := 2, nextTemp := UInt64.ofNat (2 ^ 64 - 1)
  instrs := some [.copy (.temp (.plain 0)) (.hash [(.symbol ⟨"k"⟩, .splat (.hash []))]), .nop] }]

theorem storable_nestedHash : nestedHash.Storable := by
  have hname : TextStorable "naïve" := textStorable_of_length (by decide)
  have hfile : TextStorable "t.rb" := textStorable_of_length (by decide)
  have hkey : TextStorable "k" := textStorable_of_length (by decide)
  have hcopy : (Operand.hash [(.symbol ⟨"k"⟩, .splat (.hash []))]).Storable :=
    ⟨by decide, ⟨hkey, by decide, trivial⟩, trivial⟩
  refine ⟨by decide, List.forall_mem_singleton.mpr ⟨hname, hfile, by decide, ?_⟩⟩
  rintro _ ⟨⟩
  exact ⟨by decide,
    List.forall_mem_cons.mpr ⟨⟨trivial, hcopy⟩, List.forall_mem_singleton.mpr trivial⟩⟩

theorem read_write_nestedHash : nestedHash.version = currentVersion ∧ nestedHash.Storable ∧
    Archive.read (nestedHash.write ++ [0xFF, 0]) = .ok (nestedHash, [0xFF, 0]) :=
  ⟨rfl, storable_nestedHash, read_write rfl storable_nestedHash _⟩

/-- Whatever can be read is what writing gives, and a part of that lacks bytes. -/
theorem write_canonical :
    (∀ {bytes rest : List UInt8} {a : Archive}, Archive.read bytes = .ok (a, rest) →
      bytes = a.write ++ rest) ∧
    ∀ {a : Archive} {bytes : List UInt8}, a.version = currentVersion → a.Storable →
      bytes <+: a.write → bytes ≠ a.write → ∃ e, Archive.read bytes = .error e ∧
        e.diagnostic = ⟨.persist, "io error: failed to fill whole buffer", none⟩ := by
  refine ⟨fun h => (Iff.mp read_eq_ok_iff h).2, ?_⟩
  rintro a bytes hversion hstorable ⟨more, hmore⟩ hne
  have hwhole : Archive.read (bytes ++ more) = .ok (a, []) :=
    Iff.mpr read_eq_ok_iff ⟨⟨hversion, hstorable⟩, by rw [hmore, List.append_nil]⟩
  refine ⟨.outOfBytes, ?_, rfl⟩
  rcases hread : Archive.read bytes with e | ⟨b, rest⟩
  · by_cases he : e = .outOfBytes
    · rw [he]
    · rw [Reader.Extends.error extends_read hread he] at hwhole
      cases hwhole
  · rw [Reader.Extends.ok extends_read hread] at hwhole
    obtain ⟨-, hnil⟩ := List.append_eq_nil_iff.mp (Prod.mk.inj (Except.ok.inj hwhole)).2
    rw [hnil, List.append_nil] at hmore
    exact absurd hmore hne

theorem write_canonical_nestedHash :
    Archive.read [1, 0, 0, 0, 0, 0, 0, 0, 0, 0, 0, 0, 7] = .ok (ofScopes [], [7]) ∧
    [1, 0, 0, 0, 0, 0, 0, 0, 0, 0, 0, 0, 7] = (ofScopes []).write ++ [7] ∧
    nestedHash.version = currentVersion ∧ nestedHash.Storable ∧
    nestedHash.write.dropLast <+: nestedHash.write ∧
    nestedHash.write.dropLast ≠ nestedHash.write ∧
    ∃ e, Archive.read nestedHash.write.dropLast = .error e ∧
      e.diagnostic = ⟨.persist, "io error: failed to fill whole buffer", none⟩ := by
  have hread : Archive.read [1, 0, 0, 0, 0, 0, 0, 0, 0, 0, 0, 0, 7] = .ok (ofScopes [], [7]) :=
    rfl
  have hne : nestedHash.write.dropLast ≠ nestedHash.write := fun h => by
    have hlength := congrArg List.length h
    rw [List.length_dropLast] at hlength
    have hpos := write_length_pos nestedHash
    omega
  exact ⟨hread, write_canonical.1 hread, rfl, storable_nestedHash, List.dropLast_prefix _, hne,
    write_canonical.2 rfl storable_nestedHash (List.dropLast_prefix _) hne⟩

end Archive

end ScopeIR
