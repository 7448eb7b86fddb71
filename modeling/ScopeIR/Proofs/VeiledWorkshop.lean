import ScopeIR.Proofs.Courses
import ScopeIR.Proofs.VeiledScopes

/-! All that can be done in a workshop under a veil. Callers of both runs do and hear the same, but
for the names of temporaries. -/

namespace ScopeIR

namespace Renumbering

variable (ρ : Renumbering) (counter : ScopeId → ScopeId)

/-- The answer, as it is when temporaries have their new indices. -/
def answer : Answer → Answer
  | .index id i => .index id (ρ.plain id i)
  | .replied id reply => .replied id (reply.mapVars (ρ.var (counter id)))
  | .failed id cause => .failed id (cause.mapVars (ρ.var (counter id)))
  | o => o

/-- The doing, as it is when temporaries have their new indices. -/
def doing (w : Workshop) : Doing → Doing
  | .op (.act place a) =>
    match w.worker? place with
    | some k => .op (.act place (a.mapVars (ρ.var (counter k.builder.scope))))
    | none => .op (.act place a)
  | d => d

theorem ends_answer (o : Answer) : (ρ.answer counter o).ends = o.ends := by
  cases o <;> rfl

end Renumbering

/-- The temporaries that the builder takes are a closure's, or they come from the counter of its
scope. -/
def Session.Owns (counter : ScopeId → ScopeId) (s : Session) : Prop :=
  ∀ x ∈ s.registry.scope? s.tempScope,
    (x.kind = .closure ∧ x.closureId.isSome) ∨ s.tempScope = counter s.builder.scope

instance {counter : ScopeId → ScopeId} (s : Session) : Decidable (s.Owns counter) :=
  inferInstanceAs (Decidable (∀ _ ∈ _, _))

/-- The worker that goes on or ends its work. -/
def Doing.atWork? (w : Workshop) : Doing → Option Worker
  | op (.act place _) | op (.finish place) => w.worker? place
  | _ => none

/-- In each scope plain temporaries come from one counter, those that super calls forward too. -/
structure Doing.Counts (counter : ScopeId → ScopeId) (w : Workshop) (d : Doing) : Prop where
  owns : ∀ k ∈ d.atWork? w, (w.session k).Owns counter
  shares : ∀ done ∈ d.act? w, done.2.isSuper → (w.session done.1).Shares counter

def Doing.Modest (given : Int32 → Coverage → Prop) : Doing → Prop
  | op (.act _ a) => a.Modest given
  | _ => True

namespace Veil

open Session Workshop

variable {α β : Type} {V : Veil} {g g' : Registry} {s t : Session} {w w' : Workshop} {d : Doing}
  {p : Program}

section Sanity

/-- A workshop that a traced course leads to. -/
structure Sane (V : Veil) (w : Workshop) : Prop where
  grounded : V.Grounded w.registry
  neat {place : ℕ} {k : Worker} : w.worker? place = some k → V.Neat (w.session k)

/-- What a doing of a traced course leaves. -/
structure GoesOn (V : Veil) (w : Workshop) (r : Workshop × Answer) : Prop where
  later : w.registry.Unfolds r.1.registry
  sane : r.2.ends = false → V.Sane r.1

theorem goesOn_refl {o : Answer} (hw : V.Sane w) : V.GoesOn w (w, o) := ⟨.refl _, fun _ => hw⟩

/-- The builders around do not matter. -/
theorem Neat.inside (hs : V.Neat s) (hregistry : t.registry = s.registry)
    (hbuilder : t.builder = s.builder) : V.Neat t := by
  obtain ⟨g, b, outer⟩ := s
  obtain ⟨g', b', outer'⟩ := t
  obtain rfl : g' = g := hregistry
  obtain rfl : b' = b := hbuilder
  exact ⟨hs.grounded, hs.scope, hs.pending, hs.module, hs.list, hs.holds⟩

/-- Builders at rest do not notice what others do. -/
theorem Sane.rest {place : ℕ} {k : Worker} (hw : V.Sane w) (hk : w.worker? place = some k)
    (h : w.registry.Unfolds w'.registry) (hg : V.Grounded w'.registry) : V.Neat (w'.session k) :=
  ((hw.neat hk).later h hg).inside rfl rfl

theorem goesOn_manage {x : RegistryM α} {answer : α → Answer} (hw : V.Sane w)
    (hx : ∀ {a g}, w.registry.Runs x a g →
      w.registry.Change False g ∧ g.heard = w.registry.heard) :
    V.GoesOn w (w.manage x answer) := by
  unfold manage
  cases hr : x w.registry with
  | error e => exact goesOn_refl hw
  | ok r =>
    obtain ⟨a, g⟩ := r
    obtain ⟨hchange, hheard⟩ := hx hr
    have htraced : ∀ {id m}, g.Traced id m ↔ w.registry.Traced id m :=
      Registry.traced_of_heard hheard
    have hlater := Registry.Unfolds.change hchange htraced
    have hg := hw.grounded.change hchange htraced
    exact ⟨hlater, fun _ => ⟨hg, fun hk => hw.rest hk hlater hg⟩⟩

theorem goesOn_hire {x : RegistryM Builder} {outer : List ℕ} (hw : V.Sane w)
    (hx : ∀ {b g}, w.registry.Runs x b g →
      ∃ id borrowsTemps coverage, w.registry.Runs (openBuilder id borrowsTemps coverage) b g) :
    V.GoesOn w (w.hire x outer) := by
  unfold hire
  cases hr : x w.registry with
  | error e => exact goesOn_refl hw
  | ok r =>
    obtain ⟨b, g⟩ := r
    obtain ⟨id, borrowsTemps, coverage, hr⟩ := hx hr
    have hheard := Registry.heard_of_openBuilder hr
    obtain ⟨x, hx, rfl, rfl⟩ := eq_of_openBuilder hr
    have htraced : ∀ {id' m}, _ ↔ w.registry.Traced id' m := Registry.traced_of_heard hheard
    have hlater := Registry.Unfolds.change .record htraced
    have hg := hw.grounded.change .record htraced
    refine ⟨hlater, fun _ => ⟨hg, fun hk => ?_⟩⟩
    rcases worker?_addWorker_cases hk with ⟨-, rfl⟩ | hk
    · refine ⟨hg, .of_scope? hx, fun h => ?_, fun h => ?_, .nil,
        fun _ hf => absurd hf List.not_mem_nil⟩ <;> cases h
    · exact hw.rest hk hlater hg

theorem goesOn_employ {place : ℕ} {k : Worker} {x : SessionM α} {answer : α → Answer}
    {stays : Builder → Option Worker} {refusing : Option α → List ScopeId} (hw : V.Sane w)
    (hx : V.Leads (w.session k) (x (w.session k)))
    (hstays : ∀ {b k'}, stays b = some k' → k'.builder = b) :
    V.GoesOn w (w.employ place k x answer stays refusing) := by
  -- the workshop when its worker is done
  have hleft : ∀ {r : Except Fault α} {t : Session} {ids : List ScopeId},
      V.Leads (w.session k) (r, t) → r ≠ .error .overflow → V.Sane
        { w.setWorker place (stays t.builder) with registry := t.registry, refusing := ids } := by
    intro r t ids hleads hr
    have ht := hleads.neat hr
    refine ⟨ht.grounded, fun hk' => ?_⟩
    rcases worker?_setWorker_cases hk' with ⟨-, heq⟩ | ⟨-, hk'⟩
    · exact ht.inside rfl (hstays heq)
    · exact hw.rest hk' hleads.later.registry ht.grounded
  unfold employ
  rcases hr : x (w.session k) with ⟨(cause | _ | _ | _) | a, t⟩ <;> rw [hr] at hx
  · exact ⟨hx.later.registry, fun _ => hleft hx nofun⟩
  · exact ⟨hx.later.registry, nofun⟩
  · exact ⟨hx.later.registry, nofun⟩
  · exact ⟨hx.later.registry, nofun⟩
  · exact ⟨hx.later.registry, fun _ => hleft hx nofun⟩

theorem goesOn_attempt (hw : V.Sane w) (hd : d.Modest V.given) (hcounts : d.Counts V.counter w) :
    V.GoesOn w (w.attempt d) := by
  cases d with
  | insertFlags id flags =>
    refine goesOn_manage hw fun hg => ⟨.insertFlags hg, ?_⟩
    obtain ⟨x, -, -, rfl⟩ := Registry.eq_of_insertFlags hg
    rfl
  | op o =>
    cases o with
    | newScope =>
      exact goesOn_manage hw fun hg => ⟨.newScope hg, Registry.heard_of_newScope hg⟩
    | newLabel =>
      exact goesOn_manage hw fun hg => ⟨.serves (.newLabel hg), Registry.heard_of_newLabel hg⟩
    | nextTemp =>
      exact goesOn_manage hw fun hg => ⟨.serves (.nextTemp hg), Registry.heard_of_nextTemp hg⟩
    | setRefined =>
      exact goesOn_manage hw fun hg => ⟨.setRefined hg, Registry.heard_of_updateScope hg⟩
    | openRoot id =>
      exact goesOn_hire hw fun hb => ⟨_, _, _, runs_openRoot.mp hb⟩
    | openInside place =>
      dsimp only [attempt]
      cases w.worker? place with
      | none => exact goesOn_refl hw
      | some around => exact goesOn_hire hw fun hb => ⟨_, _, _, hb⟩
    | act place a =>
      dsimp only [attempt]
      cases hk : w.worker? place with
      | none => exact goesOn_refl hw
      | some k =>
        have hshares := hcounts.shares (k, a) (congrArg (Option.map (·, a)) hk)
        have hides : V.Hides k.builder.scope (w.session k) (w.session k) a.ask _ _ :=
          Act.hides_ask hd hshares
        exact goesOn_employ hw (hides.leads (hw.neat hk)) fun h => Option.some.inj h ▸ rfl
    | finish place =>
      dsimp only [attempt]
      cases hk : w.worker? place with
      | none => exact goesOn_refl hw
      | some k =>
        have hides : V.Hides k.builder.scope (w.session k) (w.session k) finish finish _ :=
          hides_finish
        exact goesOn_employ hw (hides.leads (hw.neat hk)) fun h => by cases h
    | drop place =>
      dsimp only [attempt]
      cases w.worker? place with
      | none => exact goesOn_refl hw
      | some k =>
        refine ⟨.refl _, fun _ => ⟨hw.grounded, fun hk' => ?_⟩⟩
        rcases worker?_setWorker_cases hk' with ⟨-, heq⟩ | ⟨-, hk'⟩
        · cases heq
        · exact hw.rest hk' (.refl _) hw.grounded

end Sanity

section Pairs

noncomputable def worker (V : Veil) (k : Worker) : Worker :=
  { k with builder := k.builder.untraced (V.var (V.counter k.builder.scope)) }

/-- The second workshop is the first one without traces. -/
structure Pairs (V : Veil) (w w' : Workshop) : Prop where
  registry : V.Covers w.registry w'.registry
  workers : w'.workers = w.workers.map (Option.map V.worker)
  refusing : w'.refusing = w.refusing

/-- A doing and its answer are the same in both runs, unless there are no more temporaries for the
traced one. -/
inductive Alike (V : Veil) (r r' : Workshop × Answer) : Prop
  | same : V.Pairs r.1 r'.1 → r'.2 = V.renumbering.answer V.counter r.2 → Alike V r r'
  | spent : r.2 = .fault .overflow → r.1.registry.Spent → Alike V r r'

theorem Pairs.worker? (h : V.Pairs w w') (place : ℕ) :
    w'.worker? place = (w.worker? place).map V.worker := by
  unfold Workshop.worker?
  rw [h.workers, List.getElem?_map]
  rcases w.workers[place]? with _ | _ | k <;> rfl

theorem Pairs.untraces {k : Worker} (h : V.Pairs w w') (howns : (w.session k).Owns V.counter) :
    V.Untraces (V.counter k.builder.scope) (w.session k) (w'.session (V.worker k)) where
  registry := h.registry
  builder := rfl
  outer := by
    unfold session
    rw [List.map_filterMap]
    refine List.filterMap_congr fun place _ => ?_
    rw [h.worker?, Option.map_map, Option.map_map]
    rfl
  counter := rfl
  owner := howns _

theorem alike_refl {o : Answer} (hw : V.Pairs w w') (ho : V.renumbering.answer V.counter o = o) :
    V.Alike (w, o) (w', o) := .same hw ho.symm

theorem alike_manage {φ : α → β} {x : RegistryM α} {x' : RegistryM β} {answer : α → Answer}
    {answer' : β → Answer} (hw : V.Pairs w w') (hx : V.Echoes φ x x' w.registry w'.registry)
    (hanswer : ∀ a, answer' (φ a) = V.renumbering.answer V.counter (answer a)) :
    V.Alike (w.manage x answer) (w'.manage x' answer') := by
  unfold manage
  rcases hx with ⟨a, g, g', hr, hr', hg⟩ | ⟨e, hr, hr', -⟩ <;> rw [hr, hr']
  · exact .same ⟨hg, hw.workers, hw.refusing⟩ (hanswer a)
  · exact alike_refl hw rfl

theorem alike_hire {id : ScopeId} {x x' : RegistryM Builder} {outer : List ℕ} (hw : V.Pairs w w')
    (hx : V.Echoes (Builder.untraced (V.var (V.counter id))) x x' w.registry w'.registry)
    (hscope : ∀ {b g}, w.registry.Runs x b g → b.scope = id) :
    V.Alike (w.hire x outer) (w'.hire x' outer) := by
  unfold hire
  rcases hx with ⟨b, g, g', hr, hr', hg⟩ | ⟨e, hr, hr', -⟩ <;> rw [hr, hr']
  · obtain rfl := hscope hr
    refine .same ⟨hg, ?_, hw.refusing⟩ rfl
    simp only [addWorker, hw.workers, List.map_append, List.map_singleton]
    rfl
  · exact alike_refl hw rfl

theorem registry_employ {place : ℕ} {k : Worker} {x : SessionM α} {answer : α → Answer}
    {stays : Builder → Option Worker} {refusing : Option α → List ScopeId} :
    (w.employ place k x answer stays refusing).1.registry = (x (w.session k)).2.registry := by
  unfold employ
  rcases x (w.session k) with ⟨(_ | _ | _ | _) | a, t⟩ <;> rfl

theorem alike_employ {place : ℕ} {k : Worker} {φ : α → β} {x : SessionM α} {x' : SessionM β}
    {answer : α → Answer} {answer' : β → Answer} {stays stays' : Builder → Option Worker}
    {refusing : Option α → List ScopeId} {refusing' : Option β → List ScopeId}
    (hw : V.Pairs w w') (hs : V.Neat (w.session k)) (howns : (w.session k).Owns V.counter)
    (hcomplies : V.Complies (w.employ place k x answer stays refusing).1.registry)
    (hx : V.Hides (V.counter k.builder.scope) (w.session k) (w'.session (V.worker k)) x x' φ)
    (hanswer : ∀ a, answer' (φ a) = V.renumbering.answer V.counter (answer a))
    (hstays : ∀ b : Builder, b.scope = k.builder.scope →
      stays' (b.untraced (V.var (V.counter b.scope))) = (stays b).map V.worker)
    (hrefusing : ∀ a? : Option α, refusing' (a?.map φ) = refusing a?) :
    V.Alike (w.employ place k x answer stays refusing)
      (w'.employ place (V.worker k) x' answer' stays' refusing') := by
  rw [registry_employ] at hcomplies
  have hlater := (hx.leads hs).later
  have hmirrors := hx.mirrors hs (hw.untraces howns) hcomplies
  -- the workshops when the worker is done
  have hleft : ∀ {t t' : Session} {ids ids' : List ScopeId}, Extends (w.session k) t →
      V.Untraces (V.counter k.builder.scope) t t' → ids' = ids →
      V.Pairs { w.setWorker place (stays t.builder) with registry := t.registry, refusing := ids }
        { w'.setWorker place (stays' t'.builder) with
          registry := t'.registry, refusing := ids' } := by
    intro t t' ids ids' hext ht hids
    refine ⟨ht.registry, ?_, hids⟩
    have hscope : t.builder.scope = k.builder.scope := hext.scope
    have hstays := hstays t.builder hscope
    rw [hscope] at hstays
    simp only [setWorker, hw.workers, ht.builder, hstays, List.map_set]
  unfold employ
  generalize x' (w'.session (V.worker k)) = outcome' at hmirrors
  generalize x (w.session k) = outcome at hmirrors hlater
  cases hmirrors with
  | @ok a _ _ ht => exact .same (hleft hlater ht (hrefusing (some a))) (hanswer a)
  | @error e t t' ht =>
    cases e with
    | error cause => exact .same (hleft hlater ht (hrefusing none)) rfl
    | _ => exact .same ⟨ht.registry, hw.workers, hw.refusing⟩ rfl
  | spent h => exact .spent rfl h

theorem scope_of_openBuilder {id : ScopeId} {borrowsTemps : Bool} {coverage : Coverage}
    {b : Builder} (h : g.Runs (openBuilder id borrowsTemps coverage) b g') : b.scope = id := by
  obtain ⟨_, -, rfl, -⟩ := eq_of_openBuilder h
  rfl

/-- Super calls find the same methods. -/
theorem refuses_mapVars {c : ScopeId} {s' : Session} {a : Act} (hs : V.Neat s)
    (hss' : V.Untraces c s s') (hshares : a.isSuper → s.Shares V.counter) :
    (a.mapVars (V.var c)).refuses s' = a.refuses s := by
  cases a with
  | zsuper block =>
    obtain ⟨chain, hchain⟩ := hs.chain
    have hchain' : s'.registry.lexicalChain s'.builder.scope = .ok (chain.map V.scope) := by
      rw [hss'.registry.lexicalChain, hss'.builder, Builder.untraced_scope, hchain]
      rfl
    dsimp only [Act.mapVars, Act.refuses]
    rw [forwardedArgs?_of_chain hchain, forwardedArgs?_of_chain hchain',
      forwarded?_of_untraces hss' hchain (hshares rfl)]
    cases s.forwarded? chain <;> rfl
  | _ => rfl

theorem alike_act {place : ℕ} {k : Worker} {a : Act} (hw : V.Sane w) (hpairs : V.Pairs w w')
    (hk : w.worker? place = some k) (ha : a.Modest V.given)
    (hcounts : (Doing.op (.act place a)).Counts V.counter w)
    (hcomplies : V.Complies (w.attempt (.op (.act place a))).1.registry) :
    V.Alike (w.attempt (.op (.act place a)))
      (w'.attempt (.op (.act place (a.mapVars (V.var (V.counter k.builder.scope)))))) := by
  have hk' : w'.worker? place = some (V.worker k) := by rw [hpairs.worker?, hk, Option.map_some]
  have hshares := hcounts.shares (k, a) (congrArg (Option.map (·, a)) hk)
  have howns := hcounts.owns k hk
  have hrefuses := refuses_mapVars (hw.neat hk) (hpairs.untraces howns) hshares
  dsimp only [attempt] at hcomplies ⊢
  rw [hk] at hcomplies ⊢
  rw [hk']
  dsimp only
  rw [hrefuses]
  refine alike_employ hpairs (hw.neat hk) howns hcomplies (Act.hides_ask ha hshares) (fun _ => rfl)
    (fun b _ => rfl) fun _ => hpairs.refusing

theorem alike_finish {place : ℕ} {k : Worker} (hw : V.Sane w) (hpairs : V.Pairs w w')
    (hk : w.worker? place = some k) (hcounts : (Doing.op (.finish place)).Counts V.counter w)
    (hcomplies : V.Complies (w.attempt (.op (.finish place))).1.registry) :
    V.Alike (w.attempt (.op (.finish place))) (w'.attempt (.op (.finish place))) := by
  have hk' : w'.worker? place = some (V.worker k) := by rw [hpairs.worker?, hk, Option.map_some]
  dsimp only [attempt] at hcomplies ⊢
  rw [hk] at hcomplies ⊢
  rw [hk', hpairs.refusing]
  refine alike_employ hpairs (hw.neat hk) (hcounts.owns k hk) hcomplies hides_finish (fun _ => rfl)
    (fun _ _ => rfl) fun id? => ?_
  cases id? <;> rfl

/-- What a doing does is the same in both runs. -/
theorem alike_attempt (hw : V.Sane w) (hpairs : V.Pairs w w') (hd : d.Modest V.given)
    (hcounts : d.Counts V.counter w) (hcomplies : V.Complies (w.attempt d).1.registry) :
    V.Alike (w.attempt d) (w'.attempt (V.renumbering.doing V.counter w d)) := by
  have hg := hpairs.registry
  cases d with
  | insertFlags => exact alike_manage hpairs (echoes_insertFlags hg) fun _ => rfl
  | op o =>
    cases o with
    | newScope => exact alike_manage hpairs (echoes_newScope hg) fun _ => rfl
    | newLabel => exact alike_manage hpairs (echoes_newLabel hg) fun _ => rfl
    | setRefined => exact alike_manage hpairs (echoes_setRefined hg) fun _ => rfl
    | nextTemp id =>
      have hserved : ∀ {i h}, w.registry.Runs (RegistryM.nextTemp id) i h → V.Complies h := by
        intro i h hr
        dsimp only [attempt, manage] at hcomplies
        rw [hr] at hcomplies
        exact hcomplies
      rcases echoes_nextTemp hw.grounded hg hserved with hechoes | ⟨hr, hspent⟩
      · exact alike_manage hpairs hechoes fun _ => rfl
      · have hfault : w.attempt (.op (.nextTemp id)) = (w, .fault .overflow) := by
          dsimp only [attempt, manage]
          rw [hr]
        rw [hfault]
        exact .spent rfl hspent
    | openRoot id =>
      exact alike_hire hpairs (echoes_openRoot hg) fun hb =>
        scope_of_openBuilder (runs_openRoot.mp hb)
    | openInside place =>
      dsimp only [Renumbering.doing, attempt]
      rw [hpairs.worker?]
      cases w.worker? place with
      | none => exact alike_refl hpairs rfl
      | some around => exact alike_hire hpairs (echoes_openBuilder hg) scope_of_openBuilder
    | act place a =>
      dsimp only [Renumbering.doing]
      cases hk : w.worker? place with
      | none =>
        have hk' : w'.worker? place = none := by rw [hpairs.worker?, hk, Option.map_none]
        dsimp only [attempt]
        rw [hk, hk']
        exact alike_refl hpairs rfl
      | some k => exact alike_act hw hpairs hk hd hcounts hcomplies
    | finish place =>
      dsimp only [Renumbering.doing]
      cases hk : w.worker? place with
      | none =>
        have hk' : w'.worker? place = none := by rw [hpairs.worker?, hk, Option.map_none]
        dsimp only [attempt]
        rw [hk, hk']
        exact alike_refl hpairs rfl
      | some k => exact alike_finish hw hpairs hk hcounts hcomplies
    | drop place =>
      dsimp only [Renumbering.doing, attempt]
      rw [hpairs.worker?]
      cases w.worker? place with
      | none => exact alike_refl hpairs rfl
      | some k =>
        refine .same ⟨hg, ?_, hpairs.refusing⟩ rfl
        show (w'.setWorker place none).workers = _
        simp only [setWorker, hpairs.workers, List.map_set, Option.map_none]

end Pairs

end Veil

end ScopeIR
