import ScopeIR.Proofs.VeiledActs

/-! Scopes under a veil: how they are added, altered and finished, and how builders are opened for
them. -/

namespace ScopeIR

namespace Veil

open Session

variable {V : Veil} {c : ScopeId} {g g' : Registry} {s s' t t' u : Session}

section Finishing

theorem foldl_untraced {f : Variable → Variable} {list : List Instr} {flags : ScopeFlags} :
    (untraced f list).foldl (fun flags i => flags ∪ i.scopeFlags) flags =
      list.foldl (fun flags i => flags ∪ i.scopeFlags) flags := by
  induction list generalizing flags with
  | nil => rfl
  | cons i list ih =>
    rw [← List.singleton_append, untraced_append, List.foldl_append, List.foldl_append, ih]
    congr 1
    by_cases hi : i.isTrace
    · rw [untraced_trace hi]
      cases i <;> cases hi
      exact (FlagSet.union_empty flags).symm
    · rw [untraced_kept (Bool.eq_false_iff.mpr hi)]
      exact congrArg (flags ∪ ·) (Instr.scopeFlags_mapVars i)

theorem finalFlags_untraced {f : Variable → Variable} {b : Builder} {closures : List Scope} :
    (b.untraced f).finalFlags (closures.map V.scope) = b.finalFlags closures := by
  unfold Builder.finalFlags
  rw [← Array.foldl_toList, ← Array.foldl_toList]
  dsimp only [Builder.untraced]
  rw [foldl_untraced, List.foldl_map]
  rfl

theorem hides_mapM_scope {ids : List ScopeId} :
    V.Hides c s s' (ids.mapM fun id => liftM (RegistryM.scope id))
      (ids.mapM fun id => liftM (RegistryM.scope id)) (List.map V.scope) := by
  induction ids generalizing s s' with
  | nil => exact hides_pure rfl
  | cons id ids ih =>
    rw [List.mapM_cons]
    exact hides_bind hides_scope fun _ => hides_bind ih fun _ => hides_pure rfl

theorem leads_store {r : Except Fault Unit} {x : Scope} {list : List Instr} {flags : ScopeFlags}
    (hs : V.Neat s) (hx : s.registry.scope? s.builder.scope = some x) (hopen : ¬ x.isFinished)
    (hlist : Followed V.given list) (hflags : flags.contains .flagsComputed) :
    V.Leads s (r, { s with
      registry := s.registry.setScope s.builder.scope { x with instrs := some list, flags } }) := by
  have hadvance : s.registry.Advance False
      (s.registry.setScope s.builder.scope { x with instrs := some list, flags }) :=
    .store hx hopen hflags
  have hadvances : s.registry.Advances False _ := .single hadvance
  refine ⟨⟨⟨rfl, hadvances, fun h => h, .inl⟩, Array.size_setIfInBounds, rfl, rfl, rfl⟩,
    fun _ => ⟨⟨hs.grounded.traces, hs.grounded.arranged.advance hadvance, ?_, fun hy hi => ?_⟩,
      hadvance.has hs.scope, hs.pending, hs.module, hs.list, hs.holds⟩⟩
  · exact fun hm => (hs.grounded.bounded hm).trans_le (hadvances.temps_le _)
  · rcases Registry.scope?_setScope_cases hx hy with ⟨rfl, rfl⟩ | hy
    · exact Option.some.inj hi ▸ hlist
    · exact hs.grounded.stored hy hi

theorem hides_store {x : Scope} {flags : ScopeFlags}
    (hx : s.registry.scope? s.builder.scope = some x) (hopen : ¬ x.isFinished)
    (hflags : flags.contains .flagsComputed) : V.Hides c s s'
      (liftM (RegistryM.store s.builder.scope s.builder.instrs.toList flags))
      (liftM (RegistryM.store s.builder.scope
        (untraced (V.var c) s.builder.instrs.toList) flags)) fun v => v := by
  have hstore : ∀ list, (liftM (RegistryM.store s.builder.scope list flags) : SessionM Unit) s =
      (.ok (), { s with registry :=
        s.registry.setScope s.builder.scope { x with instrs := some list, flags } }) := by
    intro list
    rw [liftM_apply, RegistryM.store, Registry.updateScope_apply, hx]
  constructor
  · intro hs
    rw [hstore]
    exact leads_store hs hx hopen hs.list hflags
  · intro hs hss' _
    have hleads := leads_store (r := .ok ()) hs hx hopen hs.list hflags
    have hid := hs.grounded.arranged.eq_id hx
    rw [hstore, liftM_apply, RegistryM.store, Registry.updateScope_apply, hss'.registry.scope, hx]
    have hy : ({ V.scope x with
        instrs := some (untraced (V.var c) s.builder.instrs.toList), flags } : Scope) =
        V.scope { x with instrs := some s.builder.instrs.toList, flags } := by
      simp only [Veil.scope, hid, hss'.counter, Option.map_some]
    refine .ok (hss'.extends hleads.later ?_ hss'.builder rfl)
    exact hy ▸ hss'.registry.setScope hx

theorem hides_loadBlock {b : Builder} :
    V.Hides c s s' (loadBlock b) (loadBlock b) fun v => v := by
  unfold loadBlock
  split
  · have hload : ∀ v, (Instr.loadImplicitClosure v).Fine V.given := fun _ => trivial
    exact hides_bind hides_yieldClosureVar fun _ => hides_emitAtBeginning (hload _)
  · exact hides_pure rfl

theorem hides_storeFinal {x : Scope} {flags : ScopeFlags}
    (hx : s.registry.scope? s.builder.scope = some x) (hopen : ¬ x.isFinished) :
    V.Hides c s s' (storeFinal flags) (storeFinal flags) fun id => id := by
  refine hides_bind hides_insertFlags fun hinsert => hides_current_bind ?_
  obtain rfl := runs_updateBuilder.mp hinsert
  refine hides_bind hides_ownScope fun hown => ?_
  obtain ⟨-, rfl⟩ := runs_ownScope.mp hown
  refine hides_bind hides_mapM_scope fun hmap => ?_
  obtain ⟨-, rfl⟩ := runs_mapM_scope.mp hmap
  rw [finalFlags_untraced]
  refine hides_bind (hides_record rfl) fun hrecord => ?_
  obtain ⟨g, hg, rfl⟩ := runs_liftM.mp hrecord
  obtain rfl := Registry.runs_record.mp hg
  refine hides_bind (hides_store hx hopen (Builder.flagsComputed_finalFlags _ _)) fun _ => ?_
  exact hides_pure rfl

theorem hides_finish : V.Hides c s s' finish finish fun id => id := by
  rw [finish_eq]
  refine hides_current_bind (hides_bind hides_ownScope fun {x t _} hown => ?_)
  obtain ⟨hx, rfl⟩ := runs_ownScope.mp hown
  have hfinished : (V.scope x).isFinished = x.isFinished := rfl
  have hbody : (s.builder.untraced (V.var c)).isInEnsureBody = s.builder.isInEnsureBody := by
    rw [Builder.isInEnsureBody, Builder.isInEnsureBody]
    exact congrArg (!·) List.isEmpty_map
  rw [hfinished, hbody]
  split
  · exact hides_throw rfl
  next hopen =>
  split
  · exact hides_throw rfl
  refine hides_bind hides_loadBlock fun {_ u _} hload => ?_
  have hwrites : s.Does (fun _ => True) (loadBlock s.builder) := does_loadBlock fun _ => trivial
  rw [Does, hload] at hwrites
  obtain ⟨y, hy, hxy⟩ := hwrites.registry.lasts.old hx
  exact hides_storeFinal (hwrites.scope ▸ hy) (by rwa [hxy.isFinished_eq])

end Finishing

section Adding

variable {α β : Type} {φ : α → β} {id : ScopeId}

theorem echoes_get_bind {f : Registry → RegistryM α} {f' : Registry → RegistryM β}
    (h : V.Echoes φ (f g) (f' g') g g') : V.Echoes φ (get >>= f) (get >>= f') g g' := h

theorem echoes_modify {f f' : Registry → Registry} (h : V.Covers (f g) (f' g')) :
    V.Echoes (fun v => v) (modify f) (modify f') g g' := .inl ⟨(), f g, f' g', rfl, rfl, h⟩

theorem Covers.push {x : Scope} (h : V.Covers g g') :
    V.Covers { g with scopes := g.scopes.push x } { g' with scopes := g'.scopes.push (V.scope x) }
    where
  config := h.config
  nextClosureId := h.nextClosureId
  size := by rw [Array.size_push, Array.size_push, h.size]
  scope id := by
    have hid := h.scope id
    unfold Registry.scope? at hid ⊢
    rw [Array.getElem?_push, Array.getElem?_push, h.size]
    split
    · rfl
    · exact hid

theorem echoes_takeClosureId {kind : ScopeKind} (hg : V.Covers g g') :
    V.Echoes (fun k => k) (RegistryM.takeClosureId kind) (RegistryM.takeClosureId kind) g g' := by
  unfold RegistryM.takeClosureId
  split
  · refine echoes_get_bind ?_
    rw [hg.nextClosureId]
    refine echoes_bind (echoes_orOverflow hg) fun _ hg => ?_
    refine echoes_bind (echoes_modify ?_) fun _ hg => echoes_pure hg rfl
    exact ⟨hg.config, rfl, hg.size, hg.scope⟩
  · exact echoes_pure hg rfl

theorem echoes_newScope {kind : ScopeKind} {name : Symbol} {file : String} {line : Int32}
    {parent : Option ScopeId} (hg : V.Covers g g') :
    V.Echoes (fun id => id) (RegistryM.newScope kind name file line parent)
      (RegistryM.newScope kind name file line parent) g g' := by
  -- a fresh scope has spent nothing yet
  have hpush : ∀ {h h' : Registry} {id : ScopeId} {closureId : Option UInt64} {refined : Bool},
      V.Covers h h' → V.Echoes (fun id => id) (do
        let s : Scope :=
          { id, kind, name, file, line, parent, closures := [], closureId, refined,
            flags := kind.initialFlags, nextLabel := 0, nextTemp := 0, instrs := none }
        RegistryM.record (.scopeCreated s)
        modify fun r => { r with scopes := r.scopes.push s }
        return id) (do
        let s : Scope :=
          { id, kind, name, file, line, parent, closures := [], closureId, refined,
            flags := kind.initialFlags, nextLabel := 0, nextTemp := 0, instrs := none }
        RegistryM.record (.scopeCreated s)
        modify fun r => { r with scopes := r.scopes.push s }
        return id) h h' := fun hg =>
    echoes_bind (echoes_record hg) fun _ hg =>
      echoes_bind (echoes_modify hg.push) fun _ hg => echoes_pure hg rfl
  unfold RegistryM.newScope
  refine echoes_get_bind ?_
  rw [hg.size]
  dsimp only
  by_cases hfull : UInt64.size ≤ g.scopes.size
  · simp only [if_pos hfull]
    exact echoes_bind (φ := fun u => u) (echoes_throw fun _ => Fault.noConfusion) fun h =>
      absurd h Registry.not_runs_throw
  simp only [if_neg hfull]
  refine echoes_bind (echoes_takeClosureId hg) fun _ hg => ?_
  cases parent with
  | none => exact hpush hg
  | some p =>
    dsimp only
    split
    · refine echoes_bind (echoes_updateScope hg fun _ => rfl) fun _ hg => ?_
      exact echoes_bind (echoes_scope hg) fun _ hg => hpush hg
    · exact echoes_bind (echoes_scope hg) fun _ hg => hpush hg

theorem echoes_setRefined {refined : Bool} (hg : V.Covers g g') : V.Echoes (fun u => u)
    (RegistryM.setRefined id refined) (RegistryM.setRefined id refined) g g' :=
  echoes_updateScope hg fun _ => rfl

theorem echoes_insertFlags {flags : ScopeFlags} (hg : V.Covers g g') : V.Echoes (fun u => u)
    (RegistryM.insertFlags id flags) (RegistryM.insertFlags id flags) g g' := by
  unfold RegistryM.insertFlags
  refine echoes_bind (echoes_scope hg) fun {x _ _} _ hg => ?_
  have hfinished : (V.scope x).isFinished = x.isFinished := rfl
  rw [hfinished]
  split
  · exact echoes_bind (φ := fun u => u) (echoes_throw fun _ => Fault.noConfusion) fun h =>
      absurd h Registry.not_runs_throw
  · exact echoes_updateScope hg fun _ => rfl

theorem echoes_openBuilder {borrowsTemps : Bool} {coverage : Coverage} (hg : V.Covers g g') :
    V.Echoes (Builder.untraced (V.var (V.counter id))) (openBuilder id borrowsTemps coverage)
      (openBuilder id borrowsTemps coverage) g g' :=
  echoes_bind (echoes_scope hg) fun _ hg =>
    echoes_bind (echoes_record hg) fun _ hg => echoes_pure hg rfl

theorem echoes_openRoot (hg : V.Covers g g') : V.Echoes (Builder.untraced (V.var (V.counter id)))
    (openRoot id) (openRoot id) g g' := by
  refine echoes_get_bind ?_
  rw [hg.config]
  exact echoes_openBuilder hg

/-- What a counter hands out, as long as there is more to hand out. -/
theorem echoes_nextTemp (hg : V.Grounded g) (hcovers : V.Covers g g')
    (hcomplies : ∀ {i h}, g.Runs (RegistryM.nextTemp id) i h → V.Complies h) :
    V.Echoes (V.renumbering.plain id) (RegistryM.nextTemp id) (RegistryM.nextTemp id) g g' ∨
      RegistryM.nextTemp id g = .error .overflow ∧ g.Spent := by
  unfold Echoes
  have happly := g.nextTemp_apply id
  have happly' := g'.nextTemp_apply id
  rw [hcovers.scope] at happly'
  cases hx : g.scope? id with
  | none =>
    rw [hx] at happly happly'
    exact .inl (.inr ⟨_, happly, happly', nofun⟩)
  | some x =>
    rw [hx] at happly happly'
    dsimp only [Option.map_some] at happly happly'
    cases hnext : checkedAdd x.nextTemp 1 with
    | none =>
      rw [hnext] at happly
      exact .inr ⟨happly, _, x, hx, (checkedAdd_one_eq_none_iff _).mp hnext⟩
    | some next =>
      rw [hnext] at happly
      obtain ⟨hfree, hcount⟩ := (hcomplies happly).not_taken hg hx hnext
      have hid := hg.arranged.eq_id hx
      have hshown : (V.scope x).nextTemp = V.renumbering.plain id x.nextTemp := by
        simp only [Veil.scope, renumbering, count, hid, rank_of_not hfree]
      have hcount' : checkedAdd (V.scope x).nextTemp 1 =
          some (V.scope { x with nextTemp := next }).nextTemp := by
        simp only [Veil.scope, hid]
        exact hcount
      rw [hcount', hshown] at happly'
      exact .inl (.inl ⟨_, _, _, happly, happly', hcovers.setScope hx⟩)

end Adding

end Veil

end ScopeIR
