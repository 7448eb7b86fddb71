import ScopeIR.Proofs.Emission

/-! How a scope is finished: unless one of two checks fails, its block is loaded if it yields, and then
the list is stored with its final flags. -/

namespace ScopeIR

namespace Registry

/-- The scopes found are those of the list. -/
theorem mem_iff_of_map_scope? {g : Registry} {ids : List ScopeId} {xs : List Scope} {x : Scope}
    (h : ids.map g.scope? = xs.map some) : x ∈ xs ↔ ∃ id ∈ ids, g.scope? id = some x := by
  have hsome : some x ∈ xs.map some ↔ x ∈ xs := by
    simp only [List.mem_map, Option.some.injEq, exists_eq_right]
  rw [← hsome, ← h, List.mem_map]

end Registry

namespace Session

variable {s t : Session} {id : ScopeId} {flags : ScopeFlags}

/-- Loads the block where the scope begins, if the builder wants it. -/
def loadBlock (b : Builder) : SessionM Unit := do
  if b.needsYieldBlock then emitAtBeginning (.loadImplicitClosure (← yieldClosureVar))

/-- Stores the list of the scope together with the flags that are final now. -/
def storeFinal (flags : ScopeFlags) : SessionM ScopeId := do
  insertFlags flags
  let b ← current
  let closures ← (← ownScope).closures.mapM fun id => RegistryM.scope id
  let flags := b.finalFlags closures
  RegistryM.record (.scopeFinished b.scope b.instrs.size flags)
  RegistryM.store b.scope b.instrs.toList flags
  return b.scope

theorem throw_bind {α β : Type} {e : Fault} {f : α → SessionM β} :
    (throw e >>= f : SessionM β) = throw e := rfl

theorem finish_eq : finish = (do
    let b ← current
    let x ← ownScope
    if x.isFinished then throw (.error (.alreadyFinished b.scope))
    else if b.isInEnsureBody then throw (.error (.insideEnsureBody b.scope))
    else do
      loadBlock b
      storeFinal x.flags) := by
  unfold finish
  refine bind_congr fun b => bind_congr fun x => ?_
  dsimp only
  simp only [throw_bind]
  split
  · rfl
  split
  · rfl
  unfold loadBlock
  split
  · exact (bind_assoc _ _ _).symm
  · exact (pure_bind _ _).symm

theorem runs_mapM_scope {ids : List ScopeId} {xs : List Scope} :
    s.Runs (ids.mapM fun id => liftM (RegistryM.scope id)) xs t ↔
      ids.map s.registry.scope? = xs.map some ∧ s = t := by
  induction ids generalizing s t xs with
  | nil =>
    rw [List.mapM_nil, runs_pure, List.map_nil, eq_comm (a := []), List.map_eq_nil_iff]
  | cons id ids ih =>
    simp only [List.mapM_cons, runs_bind, runs_liftM, Registry.runs_scope, runs_pure, ih]
    constructor
    · rintro ⟨x, _, ⟨_, ⟨hx, rfl⟩, rfl⟩, xs, _, ⟨hxs, rfl⟩, rfl, rfl⟩
      exact ⟨by rw [List.map_cons, List.map_cons, hx, hxs], rfl⟩
    · rintro ⟨h, rfl⟩
      cases xs with
      | nil => cases h
      | cons x xs =>
        obtain ⟨hx, hxs⟩ := List.cons.inj h
        exact ⟨x, s, ⟨_, ⟨hx, rfl⟩, rfl⟩, xs, s, ⟨hxs, rfl⟩, rfl, rfl⟩

/-- What is stored is the list at work, under the flags that follow from it. -/
theorem runs_storeFinal (h : s.Runs (storeFinal flags) id t) :
    ∃ x closures final, s.registry.scope? s.builder.scope = some x ∧
      x.closures.map s.registry.scope? = closures.map some ∧
      final = (s.builder.insertFlags flags).finalFlags closures ∧ id = s.builder.scope ∧
      t = { s with
        builder := s.builder.insertFlags flags
        registry := (s.registry.recorded
          (.scopeFinished s.builder.scope s.builder.instrs.size final)).setScope s.builder.scope
            { x with instrs := some s.builder.instrs.toList, flags := final } } := by
  simp only [storeFinal, runs_bind, runs_current, runs_ownScope, runs_mapM_scope, runs_liftM,
    runs_pure] at h
  obtain ⟨_, _, hflags, _, _, ⟨rfl, rfl⟩, x, _, ⟨hx, rfl⟩, closures, _, ⟨hclosures, rfl⟩, _, _,
    ⟨_, hrecord, rfl⟩, _, _, ⟨_, hstore, rfl⟩, rfl, rfl⟩ := h
  obtain rfl := runs_updateBuilder.mp hflags
  obtain rfl := Registry.runs_record.mp hrecord
  obtain ⟨y, hy, rfl⟩ := Registry.runs_updateScope.mp hstore
  obtain rfl := Option.some.inj (hx.symm.trans hy)
  exact ⟨x, closures, _, hx, hclosures, rfl, rfl, rfl⟩

/-- A scope that is finished was unfinished before, and no ensure body of it was at work. -/
theorem runs_finish (h : s.Runs finish id t) :
    ∃ x u, s.registry.scope? s.builder.scope = some x ∧ ¬ x.isFinished ∧
      s.builder.ensureBodies = [] ∧ s.Runs (loadBlock s.builder) () u ∧
      u.Runs (storeFinal x.flags) id t := by
  simp only [finish_eq, runs_bind, runs_current, runs_ownScope] at h
  obtain ⟨_, _, ⟨rfl, rfl⟩, x, _, ⟨hx, rfl⟩, h⟩ := h
  split at h
  · exact absurd h not_runs_throw
  next hopen =>
  split at h
  · exact absurd h not_runs_throw
  next hbodies =>
  obtain ⟨_, u, hload, hstore⟩ := runs_bind.mp h
  refine ⟨x, u, hx, hopen, ?_, hload, hstore⟩
  simpa only [Builder.isInEnsureBody, Bool.not_eq_true', Bool.not_eq_false, List.isEmpty_iff]
    using hbodies

theorem builder_of_temp {v : Variable} (h : s.Runs temp v t) : t.builder = s.builder := by
  obtain ⟨_, _, _, -, -, -, rfl⟩ := runs_temp h
  rfl

theorem emits_yielding (s : Session) : s.Emits s.yielding [] :=
  ⟨.of_sameList (.refl _) rfl rfl rfl (fun _ => id) le_rfl rfl rfl rfl, ⟨rfl, rfl, rfl, rfl⟩⟩

theorem emits_of_yieldClosureVar {v : Variable} (h : s.Runs yieldClosureVar v t) :
    s.Emits t [] ∧ t.builder.instrs = s.builder.instrs := by
  obtain ⟨-, rfl⟩ | ⟨-, u, htemp, rfl⟩ := runs_yieldClosureVar h
  · exact ⟨emits_yielding s, rfl⟩
  · have hu := (emits_yielding s).trans (takesTemp_of_temp htemp).toEmits
    have hinstrs : u.builder.instrs = s.builder.instrs := by
      rw [builder_of_temp htemp]
      rfl
    refine ⟨@Emits.trans s u _ [] [] hu ?_, hinstrs⟩
    exact ⟨.of_sameList (.refl _) rfl rfl rfl (fun _ => id) le_rfl rfl rfl rfl,
      ⟨rfl, rfl, rfl, rfl⟩⟩

/-- A load that is wanted comes to stand in front of the list. -/
theorem runs_loadBlock {v : Unit} (hs : s.builder.ensureBodies = [])
    (h : s.Runs (loadBlock s.builder) v t) :
    s.builder.needsYieldBlock = false ∧ t = s ∨
      s.builder.needsYieldBlock ∧ ∃ var u, s.Runs yieldClosureVar var u ∧
        t = { u with
          builder := u.builder.prepend (.loadImplicitClosure var)
          registry :=
            u.registry.recorded (.instrAdded u.builder.scope 0 (.loadImplicitClosure var)) } := by
  unfold loadBlock at h
  split at h
  · next hyields =>
    obtain ⟨var, u, hvar, hemit⟩ := runs_bind.mp h
    have hbodies : u.builder.ensureBodies = [] := by
      rw [(emits_of_yieldClosureVar hvar).1.bodies, hs]
      rfl
    exact .inr ⟨hyields, var, u, hvar, (runs_emitAtBeginning hbodies).mp hemit⟩
  · next hnot => exact .inl ⟨Bool.eq_false_iff.mpr hnot, (runs_pure.mp h).2.symm⟩

/-- The scope was finished with the whole list, after a load of its block if it yields to it. -/
structure Finishes (s t : Session) (id : ScopeId) (front : List Instr) : Prop where
  ensureBodies : s.builder.ensureBodies = []
  id_eq : id = s.builder.scope
  front_eq : ∀ i ∈ front, ∃ v, i = .loadImplicitClosure v
  stores : ∃ g x flags, s.registry.GrowsTo g ∧ g.scope? id = some x ∧
    t.registry = g.setScope id
      { x with instrs := some (front ++ s.builder.instrs.toList), flags }

theorem finishes_of_finish (h : s.Runs finish id t) : ∃ front, s.Finishes t id front := by
  obtain ⟨x, u, -, -, hbodies, hload, hstore⟩ := runs_finish h
  -- a load may have been put in front when the list is stored
  have hlist : ∃ front, s.registry.GrowsTo u.registry ∧ u.builder.scope = s.builder.scope ∧
      u.builder.instrs.toList = front ++ s.builder.instrs.toList ∧
      ∀ i ∈ front, ∃ v, i = .loadImplicitClosure v := by
    obtain ⟨-, rfl⟩ | ⟨-, v, w, hv, rfl⟩ := runs_loadBlock hbodies hload
    · exact ⟨[], .refl _, rfl, rfl, fun _ hi => absurd hi List.not_mem_nil⟩
    · obtain ⟨hw, hinstrs⟩ := emits_of_yieldClosureVar hv
      refine ⟨[.loadImplicitClosure v], ?_, hw.scope, ?_, ?_⟩
      · exact hw.registry.trans (Registry.growsTo_recorded _ _)
      · rw [← hinstrs]
        exact Array.toList_append
      · rintro i (_ | ⟨_, ⟨⟩⟩)
        exact ⟨v, rfl⟩
  obtain ⟨front, hgrows, hscope, hlist, hfront⟩ := hlist
  obtain ⟨y, _, flags, hy, -, -, rfl, rfl⟩ := runs_storeFinal hstore
  let g := u.registry.recorded (.scopeFinished u.builder.scope u.builder.instrs.size flags)
  refine ⟨front, hbodies, hscope, hfront, g, y, flags, hgrows.trans (Registry.growsTo_recorded _ _),
    hy, ?_⟩
  rw [← hlist]

end Session

end ScopeIR
