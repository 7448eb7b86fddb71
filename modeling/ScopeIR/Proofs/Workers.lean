import ScopeIR.Proofs.Sealing

/-! Builders at work, as one thing is done after another: a builder is opened, does something itself, or
rests while something else is done. -/

namespace ScopeIR.Workshop

open Session

variable {w w' : Workshop} {d : Doing} {place : Nat} {k k' : Worker}

/-- The places are those around a builder at work, with its own, or there are none. -/
def Around (w : Workshop) (outer : List Nat) : Prop :=
  outer = [] ∨ ∃ q k, w.worker? q = some k ∧ outer = q :: k.outer

/-- How a builder that is at work after the doing came to be there. -/
inductive Turn (w : Workshop) (d : Doing) (w' : Workshop) (place : Nat) (k' : Worker) : Prop
  | opens {id : ScopeId} {coverage : Coverage} {g : Registry} : place = w.workers.length →
    d.opened? = some id →
    w.registry.Runs (openBuilder id k'.builder.borrowsTemps coverage) k'.builder g →
    w.Around k'.outer → Turn w d w' place k'
  | rests : (∀ a, d ≠ .op (.act place a)) → w.worker? place = some k' → Turn w d w' place k'
  | acts {k : Worker} {a : Act} {v : Option Unit} {t : Session} : d = .op (.act place a) →
    w.worker? place = some k → settled a.run (w.session k) = some (v, t) →
    k'.builder = t.builder → k'.outer = k.outer → w'.registry = t.registry → Turn w d w' place k'

theorem turn_of_perform (h : w.perform d = some w')
    (hk' : w'.worker? place = some k') : w.Turn d w' place k' := by
  have hleaves : ∀ {place₀ : Nat} {g : Registry} {refusing : List ScopeId},
      (∀ a, d ≠ .op (.act place a)) →
      w' = { w.setWorker place₀ none with registry := g, refusing } → w.Turn d w' place k' := by
    rintro place₀ g refusing hd rfl
    rcases worker?_setWorker_cases hk' with ⟨-, heq⟩ | ⟨-, hk⟩
    · cases heq
    · exact .rests hd hk
  have hopens : ∀ {id : ScopeId} {borrowsTemps : Bool} {coverage : Coverage} {b : Builder}
      {g : Registry} {outer : List Nat}, d.opened? = some id →
      w.registry.Runs (openBuilder id borrowsTemps coverage) b g → w.Around outer →
      w' = addWorker { w with registry := g } ⟨b, outer, false⟩ → w.Turn d w' place k' := by
    rintro id borrowsTemps coverage b g outer hd hopen houter rfl
    rcases worker?_addWorker_cases hk' with ⟨rfl, rfl⟩ | hk
    · obtain ⟨x, -, hb, -⟩ := eq_of_openBuilder hopen
      have hborrows : b.borrowsTemps = borrowsTemps := by rw [hb]
      exact .opens rfl hd (hborrows ▸ hopen) houter
    · refine .rests (fun a => ?_) hk
      rintro rfl
      cases hd
  cases d with
  | insertFlags =>
    obtain ⟨g, -, rfl⟩ := insertFlags_of_perform h
    exact .rests (by rintro _ ⟨⟩) hk'
  | op o =>
    cases steps_of_perform h with
    | newScope | newLabel | nextTemp | setRefined => exact .rests (by rintro _ ⟨⟩) hk'
    | openRoot hg => exact hopens rfl hg (.inl rfl) rfl
    | openInside hk hg => exact hopens rfl hg (.inr ⟨_, _, hk, rfl⟩) rfl
    | act hk ht =>
      rcases worker?_setWorker_cases hk' with ⟨rfl, heq⟩ | ⟨hne, hk⟩
      · obtain rfl := Option.some.inj heq
        exact .acts rfl hk ht rfl rfl rfl
      · refine .rests (fun a => ?_) hk
        rintro ⟨⟩
        exact hne rfl
    | finish | drop => exact hleaves (by rintro _ ⟨⟩) rfl

/-- Places are never given up. -/
theorem Effect.length_le {p : Terms} (h : w.Effect p d w') :
    w.workers.length ≤ w'.workers.length := by
  cases h with
  | manages => exact le_rfl
  | opens => exact List.length_append ▸ Nat.le_add_right _ _
  | acts | finishes | fails | drops => exact (List.length_set ..).ge

end ScopeIR.Workshop
