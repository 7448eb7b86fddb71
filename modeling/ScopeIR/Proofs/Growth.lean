import Mathlib.Order.Nat
import ScopeIR.Proofs.Running

/-! Registries only grow while scopes are built: scopes are added, and those that exist gain closures
and count on. -/

namespace ScopeIR

/-- `y` is `x` at a later time. -/
structure Scope.GrowsTo (x y : Scope) : Prop where
  same : y = { x with closures := y.closures, nextLabel := y.nextLabel, nextTemp := y.nextTemp }
  labels : x.nextLabel.toNat ≤ y.nextLabel.toNat
  temps : x.nextTemp.toNat ≤ y.nextTemp.toNat

namespace Scope.GrowsTo

theorem refl (x : Scope) : x.GrowsTo x := ⟨rfl, le_rfl, le_rfl⟩

theorem trans {x y z : Scope} (hxy : x.GrowsTo y) (hyz : y.GrowsTo z) : x.GrowsTo z where
  same := by rw [hyz.same, hxy.same]
  labels := hxy.labels.trans hyz.labels
  temps := hxy.temps.trans hyz.temps

theorem kind_eq {x y : Scope} (h : x.GrowsTo y) : y.kind = x.kind := by rw [h.same]

theorem parent_eq {x y : Scope} (h : x.GrowsTo y) : y.parent = x.parent := by rw [h.same]

theorem instrs_eq {x y : Scope} (h : x.GrowsTo y) : y.instrs = x.instrs := by rw [h.same]

end Scope.GrowsTo

namespace Registry

def scope? (g : Registry) (id : ScopeId) : Option Scope := g.scopes[id.index.toNat]?

/-- Every label made for the scope so far has a smaller index. -/
def labels (g : Registry) (id : ScopeId) : Nat := (g.scope? id).elim 0 (·.nextLabel.toNat)

/-- Every temporary taken from the scope so far has a smaller index. -/
def temps (g : Registry) (id : ScopeId) : Nat := (g.scope? id).elim 0 (·.nextTemp.toNat)

/-- `g'` is `g` at a later time, no scope having been finished that was there before. -/
structure GrowsTo (g g' : Registry) : Prop where
  config : g'.config = g.config
  scope {id : ScopeId} {x : Scope} : g.scope? id = some x →
    ∃ y, g'.scope? id = some y ∧ x.GrowsTo y

variable {g g' : Registry} {id : ScopeId} {x y : Scope}

theorem scope?_setScope_self (h : g.scope? id = some x) :
    (g.setScope id y).scope? id = some y := by
  have hi : id.index.toNat < g.scopes.size := (Array.getElem?_eq_some_iff.mp h).1
  simp only [scope?, setScope, Array.getElem?_setIfInBounds_self_of_lt hi]

theorem scope?_setScope_ne {id' : ScopeId} (h : id' ≠ id) :
    (g.setScope id y).scope? id' = g.scope? id' := by
  have hi : id.index.toNat ≠ id'.index.toNat := fun he =>
    h (congrArg ScopeId.mk (UInt64.toNat_inj.mp he)).symm
  simp only [scope?, setScope, Array.getElem?_setIfInBounds_ne hi]

namespace GrowsTo

theorem refl (g : Registry) : g.GrowsTo g := ⟨rfl, fun h => ⟨_, h, .refl _⟩⟩

theorem trans {g₁ g₂ g₃ : Registry} (h : g₁.GrowsTo g₂) (h' : g₂.GrowsTo g₃) :
    g₁.GrowsTo g₃ where
  config := h'.config.trans h.config
  scope hx := by
    obtain ⟨y, hy, hxy⟩ := h.scope hx
    obtain ⟨z, hz, hyz⟩ := h'.scope hy
    exact ⟨z, hz, hxy.trans hyz⟩

theorem setScope (hx : g.scope? id = some x) (hxy : x.GrowsTo y) :
    g.GrowsTo (g.setScope id y) where
  config := rfl
  scope {id' x'} hx' := by
    by_cases hid : id' = id
    · subst hid
      obtain rfl : x = x' := Option.some.inj (hx.symm.trans hx')
      exact ⟨y, scope?_setScope_self hx, hxy⟩
    · exact ⟨x', (scope?_setScope_ne hid).trans hx', .refl _⟩

/-- A scope that was not there before may be changed at will. -/
theorem setScope_new (h : g.GrowsTo g') (hid : g.scope? id = none) :
    g.GrowsTo (g'.setScope id y) where
  config := h.config
  scope {id' x'} hx' := by
    obtain ⟨z, hz, hxz⟩ := h.scope hx'
    have hne : id' ≠ id := by
      rintro rfl
      cases hx'.symm.trans hid
    exact ⟨z, (scope?_setScope_ne hne).trans hz, hxz⟩

theorem push (z : Scope) : g.GrowsTo { g with scopes := g.scopes.push z } where
  config := rfl
  scope {id x} hx := by
    have hi : id.index.toNat < g.scopes.size := (Array.getElem?_eq_some_iff.mp hx).1
    refine ⟨x, ?_, .refl x⟩
    simpa only [scope?, Array.getElem?_push_lt hi, Array.getElem?_eq_getElem hi] using hx

theorem labels_le (h : g.GrowsTo g') (id : ScopeId) : g.labels id ≤ g'.labels id := by
  unfold labels
  cases hx : g.scope? id with
  | none => exact Nat.zero_le _
  | some x =>
    obtain ⟨y, hy, hxy⟩ := h.scope hx
    rw [hy]
    exact hxy.labels

theorem temps_le (h : g.GrowsTo g') (id : ScopeId) : g.temps id ≤ g'.temps id := by
  unfold temps
  cases hx : g.scope? id with
  | none => exact Nat.zero_le _
  | some x =>
    obtain ⟨y, hy, hxy⟩ := h.scope hx
    rw [hy]
    exact hxy.temps

end GrowsTo

@[simp] theorem runs_scope : g.Runs (RegistryM.scope id) x g' ↔ g.scope? id = some x ∧ g = g' := by
  have h : g.scope id = .ok x ↔ g.scope? id = some x := by
    unfold Registry.scope Registry.scope?
    cases g.scopes[id.index.toNat]? <;> simp only [reduceCtorEq, Except.ok.injEq, Option.some.injEq]
  simp only [RegistryM.scope, runs_bind, runs_get, runs_liftM]
  constructor
  · rintro ⟨_, _, ⟨rfl, rfl⟩, hx, rfl⟩
    exact ⟨h.mp hx, rfl⟩
  · rintro ⟨hx, rfl⟩
    exact ⟨_, _, ⟨rfl, rfl⟩, h.mpr hx, rfl⟩

@[simp] theorem runs_updateScope {f : Scope → Scope} {u : Unit} :
    g.Runs (RegistryM.updateScope id f) u g' ↔
      ∃ x, g.scope? id = some x ∧ g' = g.setScope id (f x) := by
  simp only [RegistryM.updateScope, runs_bind, runs_scope, runs_modify]
  constructor
  · rintro ⟨x, _, ⟨hx, rfl⟩, rfl⟩
    exact ⟨x, hx, rfl⟩
  · rintro ⟨x, hx, rfl⟩
    exact ⟨x, _, ⟨hx, rfl⟩, rfl⟩

@[simp] theorem runs_record {e : Event} {u : Unit} :
    g.Runs (RegistryM.record e) u g' ↔ g' = { g with journal := g.journal.push e } := runs_modify

theorem growsTo_of_record {e : Event} {u : Unit} (h : g.Runs (RegistryM.record e) u g') :
    g.GrowsTo g' := by
  obtain rfl := runs_record.mp h
  exact ⟨rfl, fun h => ⟨_, h, .refl _⟩⟩

theorem orOverflow_eq_ok {α : Type} {x : Option α} {a : α} : orOverflow x = .ok a ↔ x = some a := by
  cases x <;> simp only [orOverflow, reduceCtorEq, Except.ok.injEq, Option.some.injEq]

theorem growsTo_of_addClosure {closure : ScopeId} {u : Unit}
    (h : g.Runs (RegistryM.addClosure id closure) u g') : g.GrowsTo g' := by
  obtain ⟨x, hx, rfl⟩ := runs_updateScope.mp h
  refine .setScope hx ?_
  split
  · exact .refl x
  · exact ⟨rfl, le_rfl, le_rfl⟩

/-- The counter of labels moves on by one. -/
theorem eq_of_newLabel {stem : String} {l : Label} (h : g.Runs (RegistryM.newLabel id stem) l g') :
    ∃ x next, g.scope? id = some x ∧ x.nextLabel.toNat + 1 = next.toNat ∧
      l = ⟨stem, x.nextLabel⟩ ∧ g' = g.setScope id { x with nextLabel := next } := by
  simp only [RegistryM.newLabel, runs_bind, runs_scope, runs_liftM, runs_updateScope, runs_pure,
    orOverflow_eq_ok] at h
  obtain ⟨x, _, ⟨hx, rfl⟩, next, _, ⟨hnext, rfl⟩, _, _, ⟨_, hx', rfl⟩, rfl, rfl⟩ := h
  obtain rfl := Option.some.inj (hx.symm.trans hx')
  exact ⟨x, next, hx, (checkedAdd_eq_some_iff _ _ _).mp hnext, rfl, rfl⟩

/-- The counter of temporaries moves on by one. -/
theorem eq_of_nextTemp {i : UInt64} (h : g.Runs (RegistryM.nextTemp id) i g') :
    ∃ x next, g.scope? id = some x ∧ x.nextTemp.toNat + 1 = next.toNat ∧ i = x.nextTemp ∧
      g' = g.setScope id { x with nextTemp := next } := by
  simp only [RegistryM.nextTemp, runs_bind, runs_scope, runs_liftM, runs_updateScope, runs_pure,
    orOverflow_eq_ok] at h
  obtain ⟨x, _, ⟨hx, rfl⟩, next, _, ⟨hnext, rfl⟩, _, _, ⟨_, hx', rfl⟩, rfl, rfl⟩ := h
  obtain rfl := Option.some.inj (hx.symm.trans hx')
  exact ⟨x, next, hx, (checkedAdd_eq_some_iff _ _ _).mp hnext, rfl, rfl⟩

/-- The new label is the first one that was not made before. -/
theorem runs_newLabel {stem : String} {l : Label} (h : g.Runs (RegistryM.newLabel id stem) l g') :
    g.GrowsTo g' ∧ l.stem = stem ∧ g.labels id ≤ l.index.toNat ∧ l.index.toNat < g'.labels id := by
  obtain ⟨x, next, hx, hn, rfl, rfl⟩ := eq_of_newLabel h
  refine ⟨.setScope hx ⟨rfl, ?_, le_rfl⟩, rfl, ?_, ?_⟩
  · exact hn ▸ Nat.le_succ _
  · simp only [labels, hx, Option.elim_some, le_refl]
  · simp only [labels, scope?_setScope_self hx, Option.elim_some]
    omega

/-- The new index is the first one that was not taken before. -/
theorem runs_nextTemp {i : UInt64} (h : g.Runs (RegistryM.nextTemp id) i g') :
    g.GrowsTo g' ∧ g.temps id ≤ i.toNat ∧ i.toNat < g'.temps id := by
  obtain ⟨x, next, hx, hn, rfl, rfl⟩ := eq_of_nextTemp h
  refine ⟨.setScope hx ⟨rfl, le_rfl, ?_⟩, ?_, ?_⟩
  · exact hn ▸ Nat.le_succ _
  · simp only [temps, hx, Option.elim_some, le_refl]
  · simp only [temps, scope?_setScope_self hx, Option.elim_some]
    omega

section Chains

variable {chain : List Scope}

theorem lexicalChain_eq (hx : g.scope? id = some x) : g.lexicalChain id =
    match x.parent with
    | none => .ok [x]
    | some p => if p.index < id.index then (g.lexicalChain p).map (x :: ·) else .ok [x] := by
  have hscope : g.scope id = .ok x := by
    unfold scope? at hx
    rw [Registry.scope, hx]
  rw [lexicalChain, hscope]
  simp only [bind, Except.bind]
  cases x.parent with
  | none => rfl
  | some p =>
    dsimp only
    split
    · cases g.lexicalChain p <;> rfl
    · rfl

/-- The chain of a scope right inside one that is outermost. -/
theorem lexicalChain_of_pair {outer : ScopeId} {m : Scope} (hx : g.scope? id = some x)
    (hparent : x.parent = some outer) (hlt : outer.index < id.index) (hm : g.scope? outer = some m)
    (hmparent : m.parent = none) : g.lexicalChain id = .ok [x, m] := by
  have houter : g.lexicalChain outer = .ok [m] := by
    rw [lexicalChain_eq hm, hmparent]
  rw [lexicalChain_eq hx, hparent]
  dsimp only
  rw [if_pos hlt, houter]
  rfl

theorem scope?_of_lexicalChain (h : g.lexicalChain id = .ok chain) :
    ∃ x, g.scope? id = some x := by
  cases hx : g.scope? id with
  | some x => exact ⟨x, rfl⟩
  | none =>
    unfold scope? at hx
    rw [lexicalChain, Registry.scope, hx] at h
    cases h

/-- A chain breaks off only at a scope that does not exist. -/
theorem noScope_of_lexicalChain {e : Fault}
    (h : g.lexicalChain id = .error e) : ∃ id', e = .noScope id' := by
  -- on the index, since a chain goes on only to a parent with a smaller one
  induction hn : id.index.toNat using Nat.strong_induction_on generalizing id with
  | _ n ih =>
    cases hx : g.scope? id with
    | none =>
      unfold scope? at hx
      rw [lexicalChain, Registry.scope, hx] at h
      exact ⟨id, (Except.error.inj h).symm⟩
    | some x =>
      rw [lexicalChain_eq hx] at h
      split at h
      · cases h
      · next p _ =>
        split at h
        · next hlt =>
          cases houter : g.lexicalChain p with
          | error fault =>
            rw [houter] at h
            obtain rfl := Except.error.inj h
            exact ih _ (hn ▸ hlt) houter rfl
          | ok outer =>
            rw [houter] at h
            cases h
        · cases h

theorem cons_of_lexicalChain (h : g.lexicalChain id = .ok chain) :
    ∃ x rest, chain = x :: rest ∧ g.scope? id = some x ∧
      (rest = [] ∨ ∃ p, x.parent = some p ∧ g.lexicalChain p = .ok rest) := by
  obtain ⟨x, hx⟩ := scope?_of_lexicalChain h
  rw [lexicalChain_eq hx] at h
  split at h
  · exact ⟨x, [], (Except.ok.inj h).symm, hx, .inl rfl⟩
  · next p hp =>
    split at h
    · cases hrest : g.lexicalChain p with
      | error e =>
        rw [hrest] at h
        cases h
      | ok rest =>
        rw [hrest] at h
        exact ⟨x, rest, (Except.ok.inj h).symm, hx, .inr ⟨p, hp, hrest⟩⟩
    · exact ⟨x, [], (Except.ok.inj h).symm, hx, .inl rfl⟩

theorem scope?_of_mem_lexicalChain (h : g.lexicalChain id = .ok chain) (hx : x ∈ chain) :
    ∃ id', g.scope? id' = some x := by
  induction chain generalizing id with
  | nil => cases hx
  | cons y rest ih =>
    obtain ⟨z, rest', hcons, hz, hrest⟩ := cons_of_lexicalChain h
    obtain ⟨rfl, rfl⟩ := List.cons.inj hcons
    rcases List.mem_cons.mp hx with rfl | hx
    · exact ⟨id, hz⟩
    · rcases hrest with rfl | ⟨p, -, hp⟩
      · cases hx
      · exact ih hp hx

/-- Scopes keep their kinds and parents. -/
theorem lexicalChain_of_growsTo (hg : g.GrowsTo g') (h : g.lexicalChain id = .ok chain) :
    ∃ chain', g'.lexicalChain id = .ok chain' ∧
      chain'.map (·.kind) = chain.map (·.kind) := by
  -- on the index, since a chain goes on only to a parent with a smaller one
  induction hn : id.index.toNat using Nat.strong_induction_on generalizing id chain with
  | _ n ih =>
    obtain ⟨x, hx⟩ := scope?_of_lexicalChain h
    obtain ⟨y, hy, hxy⟩ := hg.scope hx
    rw [lexicalChain_eq hx] at h
    rw [lexicalChain_eq hy, hxy.parent_eq]
    cases hp : x.parent with
    | none =>
      rw [hp] at h
      obtain rfl := Except.ok.inj h
      exact ⟨[y], rfl, by rw [List.map_singleton, List.map_singleton, hxy.kind_eq]⟩
    | some p =>
      rw [hp] at h
      dsimp only at h ⊢
      split at h
      · next hlt =>
        rw [if_pos hlt]
        cases houter : g.lexicalChain p with
        | error e =>
          rw [houter] at h
          cases h
        | ok outer =>
          rw [houter] at h
          obtain rfl := Except.ok.inj h
          obtain ⟨outer', houter', hkinds⟩ := ih p.index.toNat (hn ▸ hlt) houter rfl
          refine ⟨y :: outer', by rw [houter']; rfl, ?_⟩
          rw [List.map_cons, List.map_cons, hxy.kind_eq, hkinds]
      · next hlt =>
        rw [if_neg hlt]
        obtain rfl := Except.ok.inj h
        exact ⟨[y], rfl, by rw [List.map_singleton, List.map_singleton, hxy.kind_eq]⟩

end Chains

end Registry

end ScopeIR
