import ScopeIR.Proofs.Spelling
import ScopeIR.Proofs.Levels
import ScopeIR.Proofs.Execution
import Mathlib.Algebra.Group.Nat.Defs

/-! Operands that are read from further inside. Steps inward add up, and they fail where the sum
does, however deep inside of the operand the variable stands that has no room. -/

namespace ScopeIR

namespace Variable

variable {n m : UInt64} {v v' : Variable} {u : LocalVar}

theorem hasRoom_zero (v : Variable) : v.HasRoom 0 := by
  cases v with
  | named u => exact u.depth.toNat_lt_size
  | temp | self => trivial

theorem inside_zero : Variable.inside 0 = id := by
  funext v
  cases v with
  | named u => exact congrArg (fun d => named { u with depth := d }) (UInt64.add_zero _)
  | temp | self => rfl

theorem named_inside :
    (named u).inside n.toNat = named { u with depth := u.depth + n } := by
  rw [inside, Nat.toUInt64_eq, UInt64.ofNat_toNat]

theorem deepen_eq_some_iff : v.deepen n = some v' ↔ v.HasRoom n.toNat ∧ v' = v.inside n.toNat := by
  have hkept (h : v.deepen n = some v) (hroom : v.HasRoom n.toNat)
      (hinside : v.inside n.toNat = v) :
      v.deepen n = some v' ↔ v.HasRoom n.toNat ∧ v' = v.inside n.toNat := by
    rw [h, hinside, Option.some.injEq, and_iff_right hroom, eq_comm]
  cases v with
  | named u =>
    rw [deepen, named_inside, HasRoom, checkedAdd]
    split
    · next hroom => rw [Option.map_some, Option.some.injEq, and_iff_right hroom, eq_comm]
    · next hroom => exact iff_of_false (Option.some_ne_none _).symm fun h => hroom h.1
  | temp => exact hkept rfl trivial rfl
  | self => exact hkept rfl trivial rfl

theorem toNat_add_of_lt (h : n.toNat + m.toNat < UInt64.size) :
    (n + m).toNat = n.toNat + m.toNat := by
  rw [UInt64.toNat_add, Nat.mod_eq_of_lt h]

/-- There is room for two steps where there is room for both at once. -/
theorem hasRoom_add (h : n.toNat + m.toNat < UInt64.size) :
    v.HasRoom (n + m).toNat ↔ v.HasRoom n.toNat ∧ (v.inside n.toNat).HasRoom m.toNat := by
  cases v with
  | named u =>
    rw [named_inside, toNat_add_of_lt h]
    simp only [HasRoom]
    constructor
    · intro hboth
      have hfirst : u.depth.toNat + n.toNat < UInt64.size := by omega
      rw [toNat_add_of_lt hfirst]
      exact ⟨hfirst, by omega⟩
    · rintro ⟨hfirst, hsecond⟩
      rw [toNat_add_of_lt hfirst] at hsecond
      omega
  | temp | self => exact (and_self_iff (a := True)).symm

theorem inside_add (v : Variable) :
    (v.inside n.toNat).inside m.toNat = v.inside (n + m).toNat := by
  cases v with
  | named u => rw [named_inside, named_inside, named_inside, UInt64.add_assoc]
  | temp | self => rfl

/-- Only local variables are read differently from further inside. -/
theorem inside_eq_self_iff (hn : n ≠ 0) : v.inside n.toNat = v ↔ ∀ u, v ≠ named u := by
  cases v with
  | named u =>
    rw [named_inside]
    refine ⟨fun h => ?_, fun h => absurd rfl (h u)⟩
    have hdepth : u.depth + n = u.depth := congrArg LocalVar.depth (named.inj h)
    exact absurd (by simpa using hdepth) hn
  | temp | self => exact ⟨fun _ => nofun, fun _ => rfl⟩

end Variable

/-- There is room for so many steps inward wherever a variable stands. -/
def Token.Room (depth : Nat) (ts : List Token) : Prop := ∀ v, .var v ∈ ts → v.HasRoom depth

theorem Token.room_append {depth : Nat} {ts us : List Token} :
    Room depth (ts ++ us) ↔ Room depth ts ∧ Room depth us := by
  simp only [Room, List.mem_append, or_imp, forall_and]

theorem Token.room_cons {depth : Nat} {t : Token} {ts : List Token} (ht : ∀ v, t ≠ .var v) :
    Room depth (t :: ts) ↔ Room depth ts := by
  simp only [Room, List.mem_cons, fun v => iff_false_intro (Ne.symm (ht v)), false_or]

theorem Token.room_var {depth : Nat} {v : Variable} : Room depth [.var v] ↔ v.HasRoom depth := by
  simp only [Room, List.mem_singleton, Token.var.injEq, forall_eq]

namespace Operand

variable {n m : UInt64} {o o' : Operand}

theorem deepen_atom_eq_some_iff {a : Atom} : deepen n (.atom a) = some o' ↔
    Token.Room n.toNat (spelling (.atom a)) ∧ o' = mapVars (Variable.inside n.toNat) (.atom a) := by
  have hconst (h : deepen n (.atom a) = some (.atom a)) (ha : ∀ v, a.token ≠ .var v)
      (hmap : mapVars (Variable.inside n.toNat) (.atom a) = .atom a) :
      deepen n (.atom a) = some o' ↔
        Token.Room n.toNat [a.token] ∧ o' = mapVars (Variable.inside n.toNat) (.atom a) := by
    have hroom : Token.Room n.toNat [a.token] := (Token.room_cons ha).mpr nofun
    rw [h, hmap, Option.some.injEq, and_iff_right hroom, eq_comm]
  cases a with
  | var v =>
    have hroom : Token.Room n.toNat (spelling (.var v)) ↔ _ := Token.room_var
    rw [deepen, Option.map_eq_some_iff, hroom, mapVars]
    constructor
    · rintro ⟨v', hv', rfl⟩
      obtain ⟨hv, rfl⟩ := Variable.deepen_eq_some_iff.mp hv'
      exact ⟨hv, rfl⟩
    · rintro ⟨hv, rfl⟩
      exact ⟨_, Variable.deepen_eq_some_iff.mpr ⟨hv, rfl⟩, rfl⟩
  | _ => exact hconst rfl nofun rfl

mutual

/-- Deepening moves all variables, if each of them has room. -/
theorem deepen_eq_some_iff : ∀ {o o' : Operand},
    o.deepen n = some o' ↔ Token.Room n.toNat o.spelling ∧ o' = o.mapVars (Variable.inside n.toNat)
  | .atom _, _ => deepen_atom_eq_some_iff
  | .hash pairs, o' => by
    have hroom : Token.Room n.toNat (spelling (.hash pairs)) ↔ _ := Token.room_cons nofun
    rw [hroom, deepen, Option.map_eq_some_iff, mapVars]
    simp only [deepenPairs_eq_some_iff, and_assoc, exists_and_left, exists_eq_left, eq_comm]
  | .splat array, o' => by
    have hroom : Token.Room n.toNat (spelling (.splat array)) ↔ _ := Token.room_cons nofun
    rw [hroom, deepen, Option.map_eq_some_iff, mapVars]
    simp only [deepen_eq_some_iff, and_assoc, exists_and_left, exists_eq_left, eq_comm]

theorem deepenPairs_eq_some_iff : ∀ {ps ps' : List (Operand × Operand)},
    deepenPairs n ps = some ps' ↔
      Token.Room n.toNat (spellPairs ps) ∧ ps' = mapPairs (Variable.inside n.toNat) ps
  | [], ps' => by
    have hroom : Token.Room n.toNat (spellPairs []) := nofun
    rw [deepenPairs, mapPairs, Option.some.injEq, and_iff_right hroom, eq_comm]
  | (k, v) :: rest, ps' => by
    rw [eq_comm (b := mapPairs _ _)]
    simp only [deepenPairs, spellPairs, mapPairs, Token.room_append, Option.bind_eq_bind,
      Option.bind_eq_some_iff, deepen_eq_some_iff, deepenPairs_eq_some_iff, Option.pure_def,
      Option.some.injEq, and_assoc, exists_and_left, exists_eq_left]

end

/-- Where two steps have room, so do both at once. -/
theorem room_mapVars (h : n.toNat + m.toNat < UInt64.size) :
    Token.Room (n + m).toNat o.spelling ↔ Token.Room n.toNat o.spelling ∧
      Token.Room m.toNat (o.mapVars (Variable.inside n.toNat)).spelling := by
  have hmapped : Token.Room m.toNat (o.mapVars (Variable.inside n.toNat)).spelling ↔
      ∀ v, .var v ∈ o.spelling → (v.inside n.toNat).HasRoom m.toNat := by
    rw [spelling_mapVars id]
    constructor
    · exact fun hroom v hv => hroom _ (List.mem_map_of_mem hv)
    · intro hroom w hw
      obtain ⟨t, ht, hw⟩ := List.mem_map.mp hw
      cases t <;> cases hw
      exact hroom _ ht
  rw [hmapped]
  simp only [Token.Room, Variable.hasRoom_add h, imp_and, forall_and]

theorem deepen_bind_deepen (h : n.toNat + m.toNat < UInt64.size) :
    (o.deepen n).bind (deepen m) = o.deepen (n + m) := by
  ext o'
  have hinside : Variable.inside m.toNat ∘ Variable.inside n.toNat =
      Variable.inside (n + m).toNat := funext Variable.inside_add
  simp only [Option.bind_eq_some_iff, deepen_eq_some_iff, and_assoc,
    exists_and_left, exists_eq_left, mapVars_mapVars, hinside, room_mapVars h]

theorem mapVars_eq_self_iff {f : Variable → Variable} :
    o.mapVars f = o ↔ ∀ v, .var v ∈ o.spelling → f v = v := by
  have hspelling : o.mapVars f = o ↔ o.spelling.map (Token.map id f) = o.spelling.map id := by
    rw [List.map_id, ← spelling_mapVars id f]
    exact spelling_injective.eq_iff.symm
  rw [hspelling, List.map_inj_left]
  constructor
  · exact fun h v hv => Token.var.inj (h _ hv)
  · intro h t ht
    cases t with
    | var v => exact congrArg Token.var (h v ht)
    | _ => rfl

theorem deepen_zero (o : Operand) : o.deepen 0 = some o := by
  refine deepen_eq_some_iff.mpr ⟨fun v _ => v.hasRoom_zero, ?_⟩
  exact (mapVars_eq_self_iff.mpr fun v _ => congrFun Variable.inside_zero v).symm

theorem isSome_deepen_iff : (o.deepen n).isSome ↔ Token.Room n.toNat o.spelling := by
  simp only [Option.isSome_iff_exists, deepen_eq_some_iff, exists_and_left, exists_eq, and_true]

/-- Deepening succeeds where nothing is to be done, or where the depths of all local variables, on
any level of the operand, stay in their word. Deepening twice is deepening once by the sum, with
success and failure. What comes out differs in the depths of local variables only, by exactly what
was asked for. -/
theorem deepen_adds (o : Operand) {n m : UInt64} (h : n.toNat + m.toNat < 2 ^ 64) :
    ((o.deepen n).isSome ↔
      n = 0 ∨ ∀ v, .var (.named v) ∈ o.spelling → v.depth.toNat + n.toNat < 2 ^ 64) ∧
    (o.deepen n).bind (deepen m) = o.deepen (n + m) ∧
    o.deepen 0 = some o ∧
    ∀ o' ∈ o.deepen n,
      o'.spelling = o.spelling.map (Token.map id (Variable.inside n.toNat)) ∧
      (∀ v, .var (.named v) ∈ o.spelling → ∃ u, (Variable.named v).inside n.toNat = .named u ∧
        u.name = v.name ∧ u.offset = v.offset ∧ u.depth.toNat = v.depth.toNat + n.toNat) ∧
      (n ≠ 0 → (o' = o ↔ ∀ v, .var (.named v) ∉ o.spelling)) := by
  have hnamed : Token.Room n.toNat o.spelling ↔
      ∀ v, .var (.named v) ∈ o.spelling → v.depth.toNat + n.toNat < UInt64.size := by
    refine ⟨fun hroom v hv => hroom _ hv, fun hroom v hv => ?_⟩
    cases v with
    | named u => exact hroom u hv
    | temp | self => trivial
  refine ⟨?_, deepen_bind_deepen h, deepen_zero o, fun o' ho' => ?_⟩
  · rw [isSome_deepen_iff, hnamed]
    refine ⟨.inr, ?_⟩
    rintro (rfl | hroom)
    · exact fun v _ => v.depth.toNat_lt_size
    · exact hroom
  · obtain ⟨hroom, rfl⟩ := deepen_eq_some_iff.mp ho'
    refine ⟨spelling_mapVars id _ o, fun v hv => Variable.inside_named (hroom _ hv), fun hn => ?_⟩
    rw [mapVars_eq_self_iff]
    simp only [Variable.inside_eq_self_iff hn]
    exact ⟨fun hnone v hv => hnone _ hv v rfl, fun hnone v hv u hu => hnone u (hu ▸ hv)⟩

/-- A variable in a splat in a hash that has room for one step more. -/
def lastStep : Operand :=
  .hash [(.symbol ⟨"k"⟩, .splat (.var (.named ⟨⟨"x"⟩, 0xfffffffffffffffe, 0⟩)))]

/-- The second step fails, as two at once do. -/
theorem deepen_adds_lastStep : (lastStep.deepen 1).isSome ∧
    (lastStep.deepen 1).bind (deepen 1) = lastStep.deepen 2 ∧ lastStep.deepen 2 = none := by
  have hroom : (1 : UInt64).toNat + (1 : UInt64).toNat < 2 ^ 64 := by decide
  obtain ⟨hsome, htwice, -, -⟩ := deepen_adds lastStep hroom
  refine ⟨hsome.mpr (.inr fun v hv => ?_), htwice, by decide⟩
  simp only [lastStep, spelling, spellPairs, Atom.token, List.append_nil, List.cons_append,
    List.nil_append, List.mem_cons, List.not_mem_nil, reduceCtorEq, Token.var.injEq,
    Variable.named.injEq, or_false, false_or] at hv
  subst hv
  decide

end Operand

end ScopeIR
