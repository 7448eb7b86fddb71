import Mathlib.Logic.Relation
import ScopeIR.Proofs.Moves

/-! The registry as time passes. Whatever is done, one change follows another, and each of them adds
a scope or alters one in few ways. -/

namespace ScopeIR

namespace Registry

/-- The scope is there. -/
def Has (g : Registry) (id : ScopeId) : Prop := id.index.toNat < g.scopes.size

instance (g : Registry) (id : ScopeId) : Decidable (g.Has id) :=
  inferInstanceAs (Decidable (_ < _))

/-- What a builder asks of the registry while it works. If callers keep what they promise, the
closures that they name are there. -/
inductive Service (kept : Prop) (g : Registry) : Registry → Prop
  | record {e : Event} : e.isQuiet → Service kept g { g with journal := g.journal.push e }
  | newLabel {id : ScopeId} {stem : String} {l : Label} {g' : Registry} :
    g.Runs (RegistryM.newLabel id stem) l g' → Service kept g g'
  | nextTemp {id : ScopeId} {i : UInt64} {g' : Registry} :
    g.Runs (RegistryM.nextTemp id) i g' → Service kept g g'
  | addClosure {id closure : ScopeId} {g' : Registry} : (kept → g.Has closure) →
    g.Runs (RegistryM.addClosure id closure) () g' → Service kept g g'

/-- One change of the registry that stores no list. -/
inductive Change (kept : Prop) (g : Registry) : Registry → Prop
  | serves {g' : Registry} : g.Service kept g' → Change kept g g'
  | record {e : Event} : Change kept g { g with journal := g.journal.push e }
  | newScope {kind : ScopeKind} {name : Symbol} {file : String} {line : Int32}
    {parent : Option ScopeId} {id : ScopeId} {g' : Registry} :
    g.Runs (RegistryM.newScope kind name file line parent) id g' → Change kept g g'
  | insertFlags {id : ScopeId} {flags : ScopeFlags} {g' : Registry} :
    g.Runs (RegistryM.insertFlags id flags) () g' → Change kept g g'
  | setRefined {id : ScopeId} {refined : Bool} {g' : Registry} :
    g.Runs (RegistryM.setRefined id refined) () g' → Change kept g g'

/-- One step in time: a change, or a scope is finished. -/
inductive Advance (kept : Prop) (g : Registry) : Registry → Prop
  | changes {g' : Registry} : g.Change kept g' → Advance kept g g'
  | store {id : ScopeId} {x : Scope} {instrs : List Instr} {flags : ScopeFlags} :
    g.scope? id = some x → ¬ x.isFinished → flags.contains .flagsComputed →
      Advance kept g (g.setScope id { x with instrs := some instrs, flags })

/-- `g'` is `g` at a later time. -/
abbrev Advances (kept : Prop) (g g' : Registry) : Prop := Relation.ReflTransGen (Advance kept) g g'

end Registry

/-- `y` is `x` after a change of the registry `g` that added no scope. -/
structure Scope.AltersTo (kept : Prop) (g : Registry) (x y : Scope) : Prop where
  id : y.id = x.id
  kind : y.kind = x.kind
  parent : y.parent = x.parent
  closureId : y.closureId = x.closureId
  labels : x.nextLabel.toNat ≤ y.nextLabel.toNat
  temps : x.nextTemp.toNat ≤ y.nextTemp.toNat
  isSealed : x.isFinished → y.flags = x.flags ∧ y.instrs = x.instrs
  closures : y.closures = x.closures ∨
    ∃ c, c ∉ x.closures ∧ (kept → g.Has c) ∧ y.closures = x.closures ++ [c]

/-- `y` is `x` at a later time. -/
structure Scope.Later (x y : Scope) : Prop where
  id : y.id = x.id
  kind : y.kind = x.kind
  parent : y.parent = x.parent
  closureId : y.closureId = x.closureId
  labels : x.nextLabel.toNat ≤ y.nextLabel.toNat
  temps : x.nextTemp.toNat ≤ y.nextTemp.toNat
  isSealed : x.isFinished → y.flags = x.flags ∧ y.instrs = x.instrs
  closures : x.closures <+: y.closures

namespace Scope

variable {kept : Prop} {g : Registry} {x y z : Scope}

theorem AltersTo.refl (x : Scope) : x.AltersTo kept g x :=
  ⟨rfl, rfl, rfl, rfl, le_rfl, le_rfl, fun _ => ⟨rfl, rfl⟩, .inl rfl⟩

theorem AltersTo.later (h : x.AltersTo kept g y) : x.Later y where
  id := h.id
  kind := h.kind
  parent := h.parent
  closureId := h.closureId
  labels := h.labels
  temps := h.temps
  isSealed := h.isSealed
  closures := by
    rcases h.closures with heq | ⟨c, -, -, heq⟩
    · exact heq ▸ List.prefix_rfl
    · exact heq ▸ List.prefix_append _ _

theorem Later.refl (x : Scope) : x.Later x :=
  ⟨rfl, rfl, rfl, rfl, le_rfl, le_rfl, fun _ => ⟨rfl, rfl⟩, List.prefix_rfl⟩

theorem Later.isFinished (h : x.Later y) (hx : x.isFinished) : y.isFinished := by
  rwa [Scope.isFinished, (h.isSealed hx).1]

theorem Later.trans (h : x.Later y) (h' : y.Later z) : x.Later z where
  id := h'.id.trans h.id
  kind := h'.kind.trans h.kind
  parent := h'.parent.trans h.parent
  closureId := h'.closureId.trans h.closureId
  labels := h.labels.trans h'.labels
  temps := h.temps.trans h'.temps
  isSealed hx := by
    have hxy := h.isSealed hx
    have hyz := h'.isSealed (h.isFinished hx)
    exact ⟨hyz.1.trans hxy.1, hyz.2.trans hxy.2⟩
  closures := h.closures.trans h'.closures

end Scope

namespace Registry

variable {kept : Prop} {g g' g'' : Registry} {id : ScopeId} {x y : Scope}

theorem has_iff : g.Has id ↔ ∃ x, g.scope? id = some x := by
  constructor
  · intro h
    exact ⟨g.scopes[id.index.toNat], Array.getElem?_eq_getElem h⟩
  · rintro ⟨x, hx⟩
    exact (Array.getElem?_eq_some_iff.mp hx).1

theorem Has.of_scope? (h : g.scope? id = some x) : g.Has id := has_iff.mpr ⟨x, h⟩

/-- No scope was added, and every one of them altered at most as one change may. -/
structure Alters (kept : Prop) (g g' : Registry) : Prop where
  size : g'.scopes.size = g.scopes.size
  nextClosureId : g'.nextClosureId = g.nextClosureId
  scope {n : Nat} {x : Scope} : g.scopes[n]? = some x →
    ∃ y, g'.scopes[n]? = some y ∧ x.AltersTo kept g y

/-- The scope `x` was added. It joined the closures of its parent if it is a closure itself. -/
structure Gains (g : Registry) (x : Scope) (g' : Registry) : Prop where
  id : x.id.index.toNat = g.scopes.size
  blank : x.Blank
  closures : x.closures = []
  parent {p : ScopeId} : x.parent = some p → g.Has p
  closureId : x.closureId = if x.kind.isClosureLike then some g.nextClosureId else none
  nextClosureId : g'.nextClosureId.toNat =
    g.nextClosureId.toNat + if x.kind.isClosureLike then 1 else 0
  size : g'.scopes.size = g.scopes.size + 1
  new : g'.scopes[g.scopes.size]? = some x
  old {n : Nat} {y : Scope} : g.scopes[n]? = some y → g'.scopes[n]? = some { y with
    closures := if x.kind.isClosureLike ∧ x.parent.map (·.index.toNat) = some n then
      y.closures ++ [x.id] else y.closures }

theorem Alters.old {n : Nat} (h : g.Alters kept g') (hy : g'.scopes[n]? = some y) :
    ∃ x, g.scopes[n]? = some x ∧ x.AltersTo kept g y := by
  have hlt : n < g.scopes.size := h.size ▸ (Array.getElem?_eq_some_iff.mp hy).1
  obtain ⟨y', hy', hxy⟩ := h.scope (Array.getElem?_eq_getElem hlt)
  obtain rfl := Option.some.inj (hy.symm.trans hy')
  exact ⟨_, Array.getElem?_eq_getElem hlt, hxy⟩

theorem Alters.setScope (hx : g.scope? id = some x) (hxy : x.AltersTo kept g y) :
    g.Alters kept (g.setScope id y) where
  size := Array.size_setIfInBounds
  nextClosureId := rfl
  scope {n x'} hx' := by
    by_cases hn : n = id.index.toNat
    · subst hn
      obtain rfl := Option.some.inj (hx.symm.trans hx')
      exact ⟨y, scope?_setScope_self hx, hxy⟩
    · refine ⟨x', ?_, .refl x'⟩
      have hne : id.index.toNat ≠ n := fun h => hn h.symm
      rwa [Registry.setScope, Array.getElem?_setIfInBounds_ne hne]

theorem alters_of_record {e : Event} : g.Alters kept { g with journal := g.journal.push e } :=
  ⟨rfl, rfl, fun hx => ⟨_, hx, .refl _⟩⟩

theorem alters_of_counting (hx : g.scope? id = some x) {label temp : UInt64}
    (hlabel : x.nextLabel.toNat ≤ label.toNat) (htemp : x.nextTemp.toNat ≤ temp.toNat) :
    g.Alters kept (g.setScope id { x with nextLabel := label, nextTemp := temp }) :=
  .setScope hx ⟨rfl, rfl, rfl, rfl, hlabel, htemp, fun _ => ⟨rfl, rfl⟩, .inl rfl⟩

theorem Service.alters (h : g.Service kept g') : g.Alters kept g' := by
  cases h with
  | record => exact alters_of_record
  | newLabel h =>
    obtain ⟨x, next, hx, hnext, -, rfl⟩ := eq_of_newLabel h
    exact alters_of_counting hx (by omega) le_rfl
  | nextTemp h =>
    obtain ⟨x, next, hx, hnext, -, rfl⟩ := eq_of_nextTemp h
    exact alters_of_counting hx le_rfl (by omega)
  | @addClosure id closure g' hclosure h =>
    obtain ⟨x, hx, rfl⟩ := runs_updateScope.mp h
    split
    · exact .setScope hx (.refl x)
    · next hnew =>
      exact .setScope hx ⟨rfl, rfl, rfl, rfl, le_rfl, le_rfl, fun _ => ⟨rfl, rfl⟩,
        .inr ⟨closure, hnew, hclosure, rfl⟩⟩

/-- Builders at work do not touch what finishing stores. -/
theorem Service.serves (h : g.Service kept g') : g.Serves g' := by
  cases h with
  | record => exact serves_of_record (u := ()) (runs_record.mpr rfl)
  | newLabel h => exact serves_of_newLabel h
  | nextTemp h => exact serves_of_nextTemp h
  | addClosure _ h => exact serves_of_addClosure h

/-- Flags are open until the scope is finished. -/
theorem eq_of_insertFlags {flags : ScopeFlags} {u : Unit}
    (h : g.Runs (RegistryM.insertFlags id flags) u g') :
    ∃ x, g.scope? id = some x ∧ ¬ x.isFinished ∧
      g' = g.setScope id { x with flags := x.flags ∪ flags } := by
  obtain ⟨x, _, hscope, h⟩ := runs_bind.mp h
  obtain ⟨hx, rfl⟩ := runs_scope.mp hscope
  split at h
  · obtain ⟨_, _, hthrow, -⟩ := runs_bind.mp h
    exact absurd hthrow not_runs_throw
  · next hopen =>
    obtain ⟨_, hx', rfl⟩ := runs_updateScope.mp h
    obtain rfl := Option.some.inj (hx.symm.trans hx')
    exact ⟨x, hx, hopen, rfl⟩

/-- Only the closures of the parent change. -/
theorem Adopts.old {kind : ScopeKind} {parent : Option ScopeId} {refined : Bool}
    (h : g.Adopts kind id parent refined g') {i : Nat} {y : Scope} (hy : g.scopes[i]? = some y) :
    g'.scopes[i]? = some { y with
      closures := if kind.isClosureLike ∧ parent.map (·.index.toNat) = some i then
        y.closures ++ [id] else y.closures } := by
  cases h with
  | root =>
    rw [if_neg (by rintro ⟨-, ⟨⟩⟩)]
    exact hy
  | @closure p x hx hkind =>
    by_cases hi : p.index.toNat = i
    · subst hi
      obtain rfl := Option.some.inj (hx.symm.trans hy)
      rw [if_pos ⟨hkind, rfl⟩]
      exact scope?_setScope_self hx
    · rw [if_neg fun h => hi (Option.some.inj h.2)]
      simp only [Registry.setScope, Array.getElem?_setIfInBounds_ne hi]
      exact hy
  | apart _ hkind =>
    rw [if_neg fun h => hkind h.1]
    exact hy

theorem Adopts.has {kind : ScopeKind} {parent : Option ScopeId} {refined : Bool}
    (h : g.Adopts kind id parent refined g') {p : ScopeId} (hp : parent = some p) : g.Has p := by
  cases h with
  | root => cases hp
  | closure hx | apart hx => exact has_iff.mpr ⟨_, Option.some.inj hp ▸ hx⟩

theorem Adopts.nextClosureId_eq {kind : ScopeKind} {parent : Option ScopeId} {refined : Bool}
    (h : g.Adopts kind id parent refined g') : g'.nextClosureId = g.nextClosureId := by
  cases h <;> rfl

theorem gains_of_newScope {kind : ScopeKind} {name : Symbol} {file : String} {line : Int32}
    {parent : Option ScopeId} (h : g.Runs (RegistryM.newScope kind name file line parent) id g') :
    ∃ x, g.Gains x g' ∧ x.id = id := by
  obtain ⟨next, closureId, refined, w, hid, hclosureId, hnext, hw, rfl⟩ := eq_of_newScope h
  have hsize : w.scopes.size = g.scopes.size := hw.keeps.size_eq
  let x : Scope := { id, kind, name, file, line, parent, closures := [], closureId, refined,
                     flags := kind.initialFlags, nextLabel := 0, nextTemp := 0, instrs := none }
  refine ⟨x, ⟨hid, ⟨rfl, rfl⟩, rfl, fun hp => hw.has hp, hclosureId, ?_, ?_, ?_, ?_⟩, rfl⟩
  · rw [← hnext]
    exact congrArg UInt64.toNat hw.nextClosureId_eq
  · simp only [extended, Array.size_push, hsize]
  · rw [← hsize]
    exact Array.getElem?_push_size
  · intro i y hy
    have hz := hw.old hy
    have hlt := (Array.getElem?_eq_some_iff.mp hz).1
    simpa only [extended, Array.getElem?_push_lt hlt, Array.getElem?_eq_getElem hlt] using hz

/-- Each change adds a scope or alters those that are there. -/
theorem Change.cases (h : g.Change kept g') : g.Alters kept g' ∨ ∃ x, g.Gains x g' := by
  cases h with
  | serves h => exact .inl h.alters
  | record => exact .inl alters_of_record
  | newScope h =>
    obtain ⟨x, hx, -⟩ := gains_of_newScope h
    exact .inr ⟨x, hx⟩
  | insertFlags h =>
    obtain ⟨x, hx, hopen, rfl⟩ := eq_of_insertFlags h
    exact .inl (.setScope hx
      ⟨rfl, rfl, rfl, rfl, le_rfl, le_rfl, fun h => absurd h hopen, .inl rfl⟩)
  | setRefined h =>
    obtain ⟨x, hx, rfl⟩ := runs_updateScope.mp h
    exact .inl (.setScope hx ⟨rfl, rfl, rfl, rfl, le_rfl, le_rfl, fun _ => ⟨rfl, rfl⟩, .inl rfl⟩)

theorem Advance.cases (h : g.Advance kept g') : g.Alters kept g' ∨ ∃ x, g.Gains x g' := by
  cases h with
  | changes h => exact h.cases
  | store hx hopen =>
    exact .inl (.setScope hx
      ⟨rfl, rfl, rfl, rfl, le_rfl, le_rfl, fun h => absurd h hopen, .inl rfl⟩)

theorem Gains.later (h : g.Gains x g') (hy : g.scope? id = some y) :
    ∃ z, g'.scope? id = some z ∧ y.Later z := by
  refine ⟨_, h.old hy, rfl, rfl, rfl, rfl, le_rfl, le_rfl, fun _ => ⟨rfl, rfl⟩, ?_⟩
  dsimp only
  split
  · exact List.prefix_append _ _
  · exact List.prefix_rfl

/-- What is there is the scope that was added, or was there before, but for its closures. -/
theorem Gains.cases {n : Nat} (h : g.Gains x g') (hy : g'.scopes[n]? = some y) :
    n = g.scopes.size ∧ y = x ∨ ∃ z, g.scopes[n]? = some z ∧ y = { z with
      closures := if x.kind.isClosureLike ∧ x.parent.map (·.index.toNat) = some n then
        z.closures ++ [x.id] else z.closures } := by
  have hlt : n < g.scopes.size + 1 := h.size ▸ (Array.getElem?_eq_some_iff.mp hy).1
  rcases Nat.lt_succ_iff_lt_or_eq.mp hlt with hold | rfl
  · have hz := Array.getElem?_eq_getElem hold
    exact .inr ⟨_, hz, Option.some.inj (hy.symm.trans (h.old hz))⟩
  · exact .inl ⟨rfl, Option.some.inj (hy.symm.trans h.new)⟩

theorem Advance.later (h : g.Advance kept g') (hx : g.scope? id = some x) :
    ∃ y, g'.scope? id = some y ∧ x.Later y := by
  rcases h.cases with h | ⟨z, h⟩
  · obtain ⟨y, hy, hxy⟩ := h.scope hx
    exact ⟨y, hy, hxy.later⟩
  · exact h.later hx

theorem Advances.later (h : g.Advances kept g') (hx : g.scope? id = some x) :
    ∃ y, g'.scope? id = some y ∧ x.Later y := by
  induction h with
  | refl => exact ⟨x, hx, .refl x⟩
  | tail _ hstep ih =>
    obtain ⟨y, hy, hxy⟩ := ih
    obtain ⟨z, hz, hyz⟩ := hstep.later hy
    exact ⟨z, hz, hxy.trans hyz⟩

theorem Advance.has (h : g.Advance kept g') (hid : g.Has id) : g'.Has id := by
  obtain ⟨x, hx⟩ := has_iff.mp hid
  obtain ⟨y, hy, -⟩ := h.later hx
  exact Has.of_scope? hy

theorem Advances.has (h : g.Advances kept g') (hid : g.Has id) : g'.Has id := by
  obtain ⟨x, hx⟩ := has_iff.mp hid
  obtain ⟨y, hy, -⟩ := h.later hx
  exact Has.of_scope? hy

theorem Serves.has (h : g.Serves g') (hid : g.Has id) : g'.Has id := by
  have hsize := h.size_eq
  unfold Has at *
  omega

/-- What is there after one scope was replaced. -/
theorem scope?_setScope_cases {z : Scope} (hx : g.scope? id = some x) {id' : ScopeId}
    (hz : (g.setScope id y).scope? id' = some z) : id' = id ∧ z = y ∨ g.scope? id' = some z := by
  by_cases hid : id' = id
  · subst hid
    exact .inl ⟨rfl, (Option.some.inj ((scope?_setScope_self hx).symm.trans hz)).symm⟩
  · exact .inr ((scope?_setScope_ne hid).symm.trans hz)

/-- No other change than finishing stores a list. -/
theorem Change.instrs (h : g.Change kept g') (hy : g'.scope? id = some y) :
    y.instrs = none ∨ ∃ x, g.scope? id = some x ∧ y.instrs = x.instrs := by
  have hset : ∀ {id₀ : ScopeId} {x z : Scope}, g.scope? id₀ = some x →
      (g.setScope id₀ z).scope? id = some y → z.instrs = x.instrs →
      ∃ x, g.scope? id = some x ∧ y.instrs = x.instrs := by
    intro id₀ x z hx hy hz
    rcases scope?_setScope_cases hx hy with ⟨rfl, rfl⟩ | hy
    · exact ⟨x, hx, hz⟩
    · exact ⟨y, hy, rfl⟩
  cases h with
  | serves h =>
    obtain ⟨x, hx, hxy⟩ := h.serves.old_of_scope hy
    exact .inr ⟨x, hx, hxy.instrs⟩
  | record => exact .inr ⟨y, hy, rfl⟩
  | newScope h =>
    obtain ⟨x, hx, -⟩ := gains_of_newScope h
    rcases hx.cases hy with ⟨-, rfl⟩ | ⟨z, hz, rfl⟩
    · exact .inl hx.blank.instrs
    · exact .inr ⟨z, hz, rfl⟩
  | insertFlags h =>
    obtain ⟨x, hx, -, rfl⟩ := eq_of_insertFlags h
    exact .inr (hset hx hy rfl)
  | setRefined h =>
    obtain ⟨x, hx, rfl⟩ := runs_updateScope.mp h
    exact .inr (hset hx hy rfl)

end Registry

end ScopeIR
