import ScopeIR.Proofs.Primitives
import ScopeIR.Proofs.Workshop

/-! All that one operation of a workshop can do, one case for each kind of operation. What operations
keep is shown case by case. -/

namespace ScopeIR.Workshop

open Session

theorem change_eq_some {α : Type} {w w' : Workshop} {x : RegistryM α} {a : α} :
    w.change x = some (a, w') ↔ ∃ g, w.registry.Runs x a g ∧ w' = { w with registry := g } := by
  unfold change Registry.Runs
  rcases x w.registry with e | ⟨b, g⟩
  · simp
  · simp only [Option.some.injEq, Prod.mk.injEq, Except.ok.injEq]
    constructor
    · rintro ⟨rfl, rfl⟩
      exact ⟨g, ⟨rfl, rfl⟩, rfl⟩
    · rintro ⟨_, ⟨rfl, rfl⟩, rfl⟩
      exact ⟨rfl, rfl⟩

theorem map_change_eq_some {α : Type} {w w' : Workshop} {x : RegistryM α} :
    (w.change x).map (·.2) = some w' ↔
      ∃ a g, w.registry.Runs x a g ∧ w' = { w with registry := g } := by
  simp only [Option.map_eq_some_iff, Prod.exists, change_eq_some, exists_eq_right]

/-- What an operation does. -/
inductive Steps (w : Workshop) : Op → Workshop → Prop
  | newScope {kind : ScopeKind} {name : Symbol} {file : String} {line : Int32}
      {parent : Option ScopeId} {id : ScopeId} {g : Registry} :
    w.registry.Runs (RegistryM.newScope kind name file line parent) id g →
      Steps w (.newScope kind name file line parent) { w with registry := g }
  | newLabel {id : ScopeId} {stem : String} {l : Label} {g : Registry} :
    w.registry.Runs (RegistryM.newLabel id stem) l g →
      Steps w (.newLabel id stem) { w with registry := g }
  | nextTemp {id : ScopeId} {n : UInt64} {g : Registry} :
    w.registry.Runs (RegistryM.nextTemp id) n g → Steps w (.nextTemp id) { w with registry := g }
  | setRefined {id : ScopeId} {refined : Bool} {v : Unit} {g : Registry} :
    w.registry.Runs (RegistryM.setRefined id refined) v g →
      Steps w (.setRefined id refined) { w with registry := g }
  | openRoot {id : ScopeId} {b : Builder} {g : Registry} :
    w.registry.Runs (openBuilder id false w.registry.config.coverage) b g →
      Steps w (.openRoot id) (addWorker { w with registry := g } ⟨b, [], false⟩)
  | openInside {place : Nat} {id : ScopeId} {borrowsTemps : Bool} {k : Worker} {b : Builder}
      {g : Registry} :
    w.worker? place = some k →
    w.registry.Runs (openBuilder id borrowsTemps k.builder.coverage) b g →
      Steps w (.openInside place id borrowsTemps)
        (addWorker { w with registry := g } ⟨b, place :: k.outer, false⟩)
  | act {place : Nat} {a : Act} {k : Worker} {v : Option Unit} {t : Session} :
    w.worker? place = some k → settled a.run (w.session k) = some (v, t) →
      Steps w (.act place a)
        { w.setWorker place (some { k with
            builder := t.builder
            refused := k.refused || a.refuses (w.session k) }) with
          registry := t.registry }
  | finish {place : Nat} {k : Worker} {id? : Option ScopeId} {t : Session} :
    w.worker? place = some k → settled finish (w.session k) = some (id?, t) →
      Steps w (.finish place)
        { w.setWorker place none with
          registry := t.registry
          refusing := (if k.refused then id?.toList else []) ++ w.refusing }
  | drop {place : Nat} {k : Worker} : w.worker? place = some k →
    Steps w (.drop place) (w.setWorker place none)

variable {w w' : Workshop} {op : Op}

theorem steps_of_step (h : w.step op = some w') : w.Steps op w' := by
  cases op with
  | newScope =>
    obtain ⟨_, _, hg, rfl⟩ := map_change_eq_some.mp h
    exact .newScope hg
  | newLabel =>
    obtain ⟨_, _, hg, rfl⟩ := map_change_eq_some.mp h
    exact .newLabel hg
  | nextTemp =>
    obtain ⟨_, _, hg, rfl⟩ := map_change_eq_some.mp h
    exact .nextTemp hg
  | setRefined =>
    obtain ⟨_, _, hg, rfl⟩ := map_change_eq_some.mp h
    exact .setRefined hg
  | openRoot =>
    obtain ⟨⟨b, _⟩, hchange, h⟩ := Option.bind_eq_some_iff.mp h
    obtain ⟨g, hg, rfl⟩ := change_eq_some.mp hchange
    obtain rfl := Option.some.inj h
    exact .openRoot (runs_openRoot.mp hg)
  | openInside =>
    obtain ⟨k, hk, h⟩ := Option.bind_eq_some_iff.mp h
    obtain ⟨⟨b, _⟩, hchange, h⟩ := Option.bind_eq_some_iff.mp h
    obtain ⟨g, hg, rfl⟩ := change_eq_some.mp hchange
    obtain rfl := Option.some.inj h
    exact .openInside hk hg
  | act =>
    obtain ⟨k, hk, h⟩ := Option.bind_eq_some_iff.mp h
    obtain ⟨⟨v, t⟩, ht, h⟩ := Option.bind_eq_some_iff.mp h
    obtain rfl := Option.some.inj h
    exact .act hk ht
  | finish =>
    obtain ⟨k, hk, h⟩ := Option.bind_eq_some_iff.mp h
    obtain ⟨⟨id?, t⟩, ht, h⟩ := Option.bind_eq_some_iff.mp h
    obtain rfl := Option.some.inj h
    exact .finish hk ht
  | drop =>
    obtain ⟨k, hk, h⟩ := Option.bind_eq_some_iff.mp h
    obtain rfl := Option.some.inj h
    exact .drop hk

/-- What an operation can do is what it does. -/
theorem Steps.step (h : w.Steps op w') : w.step op = some w' := by
  cases h with
  | newScope h | newLabel h | nextTemp h | setRefined h =>
    exact map_change_eq_some.mpr ⟨_, _, h, rfl⟩
  | openRoot h =>
    exact Option.bind_eq_some_iff.mpr
      ⟨_, change_eq_some.mpr ⟨_, runs_openRoot.mpr h, rfl⟩, rfl⟩
  | openInside hk h =>
    exact Option.bind_eq_some_iff.mpr ⟨_, hk, Option.bind_eq_some_iff.mpr
      ⟨_, change_eq_some.mpr ⟨_, h, rfl⟩, rfl⟩⟩
  | act hk h | finish hk h =>
    exact Option.bind_eq_some_iff.mpr ⟨_, hk, Option.bind_eq_some_iff.mpr ⟨_, h, rfl⟩⟩
  | drop hk => exact Option.bind_eq_some_iff.mpr ⟨_, hk, rfl⟩

theorem settled_of_step {place : Nat} {a : Act} {k : Worker} (hk : w.worker? place = some k)
    (h : w.step (.act place a) = some w') :
    ∃ v t, settled a.run (w.session k) = some (v, t) ∧
      w' = { w.setWorker place (some { k with
          builder := t.builder
          refused := k.refused || a.refuses (w.session k) }) with
        registry := t.registry } := by
  cases steps_of_step h with
  | act hk' ht =>
    obtain rfl := Option.some.inj (hk.symm.trans hk')
    exact ⟨_, _, ht, rfl⟩

end ScopeIR.Workshop
