import ScopeIR.Proofs.Exits

/-! Building that cannot fail but for a number that leaves its word. -/

namespace ScopeIR

variable {α β : Type}

/-- The change succeeds unless a number leaves its word. -/
def Registry.Works (g : Registry) (x : RegistryM α) : Prop :=
  (∃ a g', g.Runs x a g') ∨ x g = .error .overflow

/-- The action succeeds unless a number leaves its word. -/
def Session.Works (s : Session) (x : SessionM α) : Prop :=
  (∃ a t, s.Runs x a t) ∨ ∃ t, x s = (.error .overflow, t)

/-- The action succeeds unless a number leaves its word. -/
def TrailM.Works (x : TrailM α) (s : Session) (h : Trail) : Prop :=
  (∃ a t k, Runs x s h a t k) ∨ ∃ t k, x s h = ((.error .overflow, t), k)

namespace Registry

variable {g : Registry} {id : ScopeId} {y : Scope}

theorem works_bind {x : RegistryM α} {f : α → RegistryM β} (hx : g.Works x)
    (hf : ∀ {a g'}, g.Runs x a g' → g'.Works (f a)) : g.Works (x >>= f) := by
  rcases hx with ⟨a, g', hx⟩ | hx
  · have heq : (x >>= f) g = f a g' := by
      unfold Runs at hx
      simp only [bind, StateT.bind, Except.bind, hx]
    rcases hf hx with ⟨b, g'', hb⟩ | hb
    · exact .inl ⟨b, g'', runs_bind.mpr ⟨a, g', hx, hb⟩⟩
    · exact .inr (heq.trans hb)
  · refine .inr ?_
    simp only [bind, StateT.bind, Except.bind, hx]

theorem works_of_runs {x : RegistryM α} {a : α} {g' : Registry} (h : g.Runs x a g') :
    g.Works x := .inl ⟨a, g', h⟩

theorem works_orOverflow (x : Option α) : g.Works (liftM (orOverflow x)) := by
  cases x with
  | none => exact .inr rfl
  | some a => exact works_of_runs (runs_liftM.mpr ⟨rfl, rfl⟩)

theorem works_newLabel (hy : g.scope? id = some y) (stem : String) :
    g.Works (RegistryM.newLabel id stem) := by
  unfold RegistryM.newLabel
  refine works_bind (works_of_runs (runs_scope.mpr ⟨hy, rfl⟩)) fun hscope => ?_
  obtain ⟨hx, rfl⟩ := runs_scope.mp hscope
  refine works_bind (works_orOverflow _) fun hnext => ?_
  obtain ⟨-, rfl⟩ := runs_liftM.mp hnext
  refine works_bind (works_of_runs (a := ()) (runs_updateScope.mpr ⟨_, hx, rfl⟩)) fun _ => ?_
  exact works_of_runs (runs_pure.mpr ⟨rfl, rfl⟩)

theorem works_nextTemp (hy : g.scope? id = some y) : g.Works (RegistryM.nextTemp id) := by
  unfold RegistryM.nextTemp
  refine works_bind (works_of_runs (runs_scope.mpr ⟨hy, rfl⟩)) fun hscope => ?_
  obtain ⟨hx, rfl⟩ := runs_scope.mp hscope
  refine works_bind (works_orOverflow _) fun hnext => ?_
  obtain ⟨-, rfl⟩ := runs_liftM.mp hnext
  refine works_bind (works_of_runs (a := ()) (runs_updateScope.mpr ⟨_, hx, rfl⟩)) fun _ => ?_
  exact works_of_runs (runs_pure.mpr ⟨rfl, rfl⟩)

end Registry

namespace Session

variable {s t : Session}

theorem works_bind {x : SessionM α} {f : α → SessionM β} (hx : s.Works x)
    (hf : ∀ {a t}, s.Runs x a t → t.Works (f a)) : s.Works (x >>= f) := by
  rcases hx with ⟨a, t, hx⟩ | ⟨t, hx⟩
  · have heq : (x >>= f) s = f a t := by
      unfold Runs at hx
      rw [bind_apply, hx]
    rcases hf hx with ⟨b, u, hb⟩ | ⟨u, hb⟩
    · exact .inl ⟨b, u, runs_bind.mpr ⟨a, t, hx, hb⟩⟩
    · exact .inr ⟨u, heq.trans hb⟩
  · exact .inr ⟨t, by rw [bind_apply, hx]⟩

theorem works_of_runs {x : SessionM α} {a : α} (h : s.Runs x a t) : s.Works x := .inl ⟨a, t, h⟩

theorem Works.of_eq {x y : SessionM α} (h : x s = y t) (ht : t.Works y) : s.Works x := by
  simpa only [Works, Runs, h] using ht

theorem works_pure {a : α} : s.Works (pure a) := works_of_runs (runs_pure.mpr ⟨rfl, rfl⟩)

theorem works_current : s.Works current := works_of_runs (runs_current.mpr ⟨rfl, rfl⟩)

theorem works_get : s.Works get := works_of_runs (runs_get.mpr ⟨rfl, rfl⟩)

theorem works_updateBuilder {f : Builder → Builder} : s.Works (updateBuilder f) :=
  works_of_runs (a := ()) (runs_updateBuilder.mpr rfl)

theorem works_liftM {x : RegistryM α} (hx : s.registry.Works x) :
    s.Works (liftM x : SessionM α) := by
  rcases hx with ⟨a, g, hx⟩ | hx
  · exact .inl ⟨a, { s with registry := g }, runs_liftM.mpr ⟨g, hx, rfl⟩⟩
  · refine .inr ⟨s, ?_⟩
    rw [liftM_apply, hx]

theorem works_record {e : Event} : s.Works (liftM (RegistryM.record e)) :=
  works_liftM (Registry.works_of_runs (a := ()) (Registry.runs_record.mpr rfl))

theorem works_orOverflow (x : Option α) : s.Works (liftM (orOverflow x)) := by
  cases x with
  | none => exact .inr ⟨s, rfl⟩
  | some a => exact works_of_runs (runs_liftM_except.mpr ⟨rfl, rfl⟩)

/-- The scope at work and those around it are there, and so is the one that temporaries come from. -/
structure Ready (s : Session) : Prop where
  temps : ∃ x, s.registry.scope? s.tempScope = some x
  chain : ∃ chain, s.registry.lexicalChain s.builder.scope = .ok chain

theorem Ready.adds {xs : List Instr} (hs : s.Ready) (ht : s.Adds t xs) : t.Ready where
  temps := by
    obtain ⟨x, hx⟩ := hs.temps
    obtain ⟨y, hy, -⟩ := ht.registry.scope hx
    exact ⟨y, ht.tempScope_eq ▸ hy⟩
  chain := by
    obtain ⟨chain, hchain⟩ := hs.chain
    obtain ⟨chain', hchain', -⟩ := Registry.lexicalChain_of_growsTo ht.registry hchain
    exact ⟨chain', ht.scope ▸ hchain'⟩

/-- A builder with temporaries of its own needs no other scope. -/
theorem ready_of_ownTemps {chain : List Scope} (htemps : s.builder.borrowsTemps = false)
    (hchain : s.registry.lexicalChain s.builder.scope = .ok chain) : s.Ready where
  temps := by
    have howner : s.tempScope = s.builder.scope := by
      unfold tempScope Builder.tempOwner
      rw [htemps]
      cases s.outer <;> rfl
    rw [howner]
    exact Registry.scope?_of_lexicalChain hchain
  chain := ⟨chain, hchain⟩

theorem Ready.scope (hs : s.Ready) : ∃ x, s.registry.scope? s.builder.scope = some x := by
  obtain ⟨chain, hchain⟩ := hs.chain
  exact Registry.scope?_of_lexicalChain hchain

theorem Ready.works_ownScope (hs : s.Ready) : s.Works ownScope := by
  obtain ⟨x, hx⟩ := hs.scope
  exact works_of_runs (runs_ownScope.mpr ⟨hx, rfl⟩)

theorem Ready.works_temp (hs : s.Ready) : s.Works temp := by
  obtain ⟨x, hx⟩ := hs.temps
  unfold temp
  refine works_bind works_get fun hget => ?_
  obtain ⟨rfl, rfl⟩ := runs_get.mp hget
  refine works_bind (works_liftM (Registry.works_nextTemp hx)) fun hnext => ?_
  obtain ⟨g, hg, rfl⟩ := runs_liftM.mp hnext
  obtain ⟨y, hy, -⟩ := (Registry.runs_nextTemp hg).1.scope hx
  refine works_bind (works_liftM (Registry.works_of_runs (Registry.runs_scope.mpr ⟨hy, rfl⟩)))
    fun _ => works_pure

theorem Ready.works_newLabel (hs : s.Ready) : s.Works newLabel := by
  obtain ⟨x, hx⟩ := hs.scope
  unfold newLabel newLabelNamed
  refine works_bind works_current fun hcurrent => ?_
  obtain ⟨rfl, rfl⟩ := runs_current.mp hcurrent
  exact works_liftM (Registry.works_newLabel hx _)

theorem works_append {i : Instr} : s.Works (append i) := by
  unfold append
  refine works_bind works_current fun _ => works_bind works_record fun _ => works_updateBuilder

theorem Ready.works_currentModuleVar (hs : s.Ready) : s.Works currentModuleVar := by
  obtain ⟨x, hx⟩ := hs.scope
  unfold currentModuleVar
  refine works_bind works_current fun hcurrent => ?_
  obtain ⟨rfl, rfl⟩ := runs_current.mp hcurrent
  split
  · exact works_pure
  · refine works_bind (works_liftM (Registry.works_nextTemp hx)) fun _ => ?_
    exact works_bind works_updateBuilder fun _ => works_pure

theorem Ready.nearestMethod (hs : s.Ready) :
    ∃ method, s.registry.nearestMethod s.builder.scope = .ok method := by
  obtain ⟨chain, hchain⟩ := hs.chain
  refine ⟨chain.find? (·.kind = .method), ?_⟩
  unfold Registry.nearestMethod
  rw [hchain]
  rfl

theorem Ready.works_tracePoint (hs : s.Ready) (line : Int32) (module : Variable) :
    s.Works (tracePoint s.builder.scope line module) := by
  obtain ⟨method, hmethod⟩ := hs.nearestMethod
  refine works_bind works_get fun hget => ?_
  obtain ⟨rfl, rfl⟩ := runs_get.mp hget
  refine works_bind (works_of_runs (runs_liftM_except.mpr ⟨hmethod, rfl⟩)) fun hrun => ?_
  obtain ⟨-, rfl⟩ := runs_liftM_except.mp hrun
  exact works_bind hs.works_ownScope fun _ => works_bind (works_orOverflow _) fun _ => works_append

theorem Ready.works_flushLine (hs : s.Ready) (hbodies : s.builder.ensureBodies = []) :
    s.Works flushLine := by
  cases hline : s.builder.line.pending with
  | none => exact works_of_runs (flushLine_of_none hline)
  | some line =>
    have hlined := emits_lined line hbodies
    have hready := hs.adds hlined.toAdds
    refine .of_eq (flushLine_of_some hline) ?_
    split
    · refine works_bind hready.works_currentModuleVar fun hmodule => ?_
      have hmodule := emits_of_currentModuleVar hmodule
      rw [← hlined.scope, ← hmodule.scope]
      exact (hready.adds hmodule.toAdds).works_tracePoint ..
    · exact works_pure

theorem Ready.works_emit (hs : s.Ready) (i : Instr) : s.Works (emit i) := by
  unfold emit
  refine works_bind works_current fun hcurrent => ?_
  obtain ⟨rfl, rfl⟩ := runs_current.mp hcurrent
  split
  · exact works_updateBuilder
  · next hbodies => exact works_bind (hs.works_flushLine hbodies) fun _ => works_append

theorem Ready.works_call {result : Variable} {type : CallType} {receiver : Operand}
    {name : Symbol} {args : List Operand} {block : Operand} {flags : CallFlags} (hs : s.Ready) :
    s.Works (call result type receiver name args block flags) := by
  unfold call
  refine works_bind hs.works_ownScope fun hscope => ?_
  obtain ⟨-, rfl⟩ := runs_ownScope.mp hscope
  exact works_bind (hs.works_emit _) fun _ => works_pure

theorem Ready.works_searchModuleConst {module : Operand} {name : Symbol} (hs : s.Ready) :
    s.Works (searchModuleConst module name) := by
  unfold searchModuleConst
  refine works_bind hs.works_temp fun htemp => ?_
  have hs := hs.adds (takesTemp_of_temp htemp).toAdds
  exact works_bind (hs.works_emit _) fun _ => works_pure

theorem emits_of_searchModuleConst {module r : Operand} {name : Symbol}
    (h : s.Runs (searchModuleConst module name) r t) : ∃ xs, s.Emits t xs := by
  simp only [searchModuleConst, runs_bind, runs_pure] at h
  obtain ⟨v, _, htemp, _, _, hemit, rfl, rfl⟩ := h
  exact ⟨_, (takesTemp_of_temp htemp).toEmits.trans (emits_of_emit hemit)⟩

theorem Ready.works_raiseError {className : Symbol} {message : Operand} (hs : s.Ready) :
    s.Works (raiseError className message) := by
  unfold raiseError
  refine works_bind hs.works_searchModuleConst fun hclass => ?_
  obtain ⟨_, hclass⟩ := emits_of_searchModuleConst hclass
  have hs := hs.adds hclass.toAdds
  refine works_bind hs.works_searchModuleConst fun hkernel => ?_
  obtain ⟨_, hkernel⟩ := emits_of_searchModuleConst hkernel
  have hs := hs.adds hkernel.toAdds
  refine works_bind hs.works_temp fun htemp => ?_
  have hs := hs.adds (takesTemp_of_temp htemp).toAdds
  exact works_bind hs.works_call fun _ => works_pure

end Session

namespace TrailM

variable {s t : Session} {h : Trail}

theorem works_bind {x : TrailM α} {f : α → TrailM β} (hx : Works x s h)
    (hf : ∀ {a t k}, Runs x s h a t k → Works (f a) t k) : Works (x >>= f) s h := by
  rcases hx with ⟨a, t, k, hx⟩ | ⟨t, k, hx⟩
  · have heq : (x >>= f) s h = f a t k := by
      unfold Runs at hx
      rw [BuildT.bind_apply, hx]
    rcases hf hx with ⟨b, u, l, hb⟩ | ⟨u, l, hb⟩
    · exact .inl ⟨b, u, l, runs_bind.mpr ⟨a, t, k, hx, hb⟩⟩
    · exact .inr ⟨u, l, heq.trans hb⟩
  · exact .inr ⟨t, k, by rw [BuildT.bind_apply, hx]⟩

theorem works_pure {a : α} : Works (pure a) s h :=
  .inl ⟨a, s, h, runs_pure.mpr ⟨rfl, rfl, rfl⟩⟩

theorem works_lift {x : SessionM α} (hx : s.Works x) : Works (liftM x) s h := by
  rcases hx with ⟨a, t, hx⟩ | ⟨t, hx⟩
  · exact .inl ⟨a, t, h, runs_liftM.mpr ⟨hx, rfl⟩⟩
  · refine .inr ⟨t, h, ?_⟩
    change (x s, h) = _
    rw [hx]

theorem works_lift_bind {x : SessionM α} {f : α → TrailM β} (hx : s.Works x)
    (hf : ∀ {a t}, s.Runs x a t → Works (f a) t h) : Works (liftM x >>= f) s h := by
  refine works_bind (works_lift hx) fun hr => ?_
  obtain ⟨hrun, rfl⟩ := runs_liftM.mp hr
  exact hf hrun

open Session in
theorem works_ifElse_emit {value test : Operand} (hs : s.Ready) (yes no : Instr) :
    Works (BuildT.ifElse value test (emit yes) (emit no)) s h := by
  unfold BuildT.ifElse
  refine works_lift_bind hs.works_newLabel fun helse => ?_
  have hs := hs.adds (makesLabel_of_newLabel helse).toAdds
  refine works_lift_bind hs.works_newLabel fun hend => ?_
  have hs := hs.adds (makesLabel_of_newLabel hend).toAdds
  refine works_lift_bind (hs.works_emit _) fun hbranch => ?_
  have hs := hs.adds (emits_of_emit hbranch).toAdds
  refine works_lift_bind (hs.works_emit yes) fun hyes => ?_
  have hs := hs.adds (emits_of_emit hyes).toAdds
  refine works_lift_bind (hs.works_emit _) fun hjump => ?_
  have hs := hs.adds (emits_of_emit hjump).toAdds
  refine works_lift_bind (hs.works_emit _) fun hlabel => ?_
  have hs := hs.adds (emits_of_emit hlabel).toAdds
  refine works_lift_bind (hs.works_emit no) fun hno => ?_
  have hs := hs.adds (emits_of_emit hno).toAdds
  exact works_lift (hs.works_emit _)

open Session in
theorem works_forwardAll {args : ForwardedArgs} {forward : List Operand → CallFlags → Instr}
    (hs : s.Ready) : Works (BuildT.zsuper.forwardAll args forward) s h := by
  unfold BuildT.zsuper.forwardAll
  refine works_lift_bind (works_orOverflow _) fun hdeepen => ?_
  obtain ⟨-, rfl⟩ := runs_liftM_except.mp hdeepen
  exact works_lift (hs.works_emit _)

open Session in
/-- Looking for the method whose arguments are passed on is all that can go wrong. -/
theorem works_zsuper {block : Operand} {args : Option ForwardedArgs} (hs : s.Ready)
    (hargs : s.Runs forwardedArgs? args s) : Works (BuildT.zsuper block) s h := by
  unfold BuildT.zsuper
  refine works_lift_bind (works_of_runs hargs) fun {args _} hrun => ?_
  obtain rfl := eq_of_forwardedArgs hrun
  refine works_lift_bind hs.works_temp fun htemp => ?_
  have hs := hs.adds (takesTemp_of_temp htemp).toAdds
  cases args with
  | none =>
    refine works_lift_bind works_updateBuilder fun hflags => ?_
    have hs := hs.adds (emits_of_insertFlags hflags).toAdds
    exact works_lift_bind hs.works_raiseError fun _ => works_pure
  | some args =>
    refine works_lift_bind hs.works_ownScope fun hscope => ?_
    obtain ⟨-, rfl⟩ := runs_ownScope.mp hscope
    simp only [liftM_registry]
    refine works_lift_bind works_record fun hrecord => ?_
    have hs := hs.adds (emits_of_record hrecord).toAdds
    split
    · split
      · refine works_lift_bind (works_orOverflow _) fun hrest => ?_
        obtain ⟨-, rfl⟩ := runs_liftM_except.mp hrest
        refine works_lift_bind (works_orOverflow _) fun hpositional => ?_
        obtain ⟨-, rfl⟩ := runs_liftM_except.mp hpositional
        refine works_lift_bind hs.works_temp fun htest => ?_
        have hs := hs.adds (takesTemp_of_temp htest).toAdds
        refine works_lift_bind (hs.works_emit _) fun hhelper => ?_
        have hs := hs.adds (emits_of_emit hhelper).toAdds
        exact works_bind (works_ifElse_emit hs _ _) fun _ => works_pure
      · exact works_bind (works_forwardAll hs) fun _ => works_pure
    · exact works_bind (works_forwardAll hs) fun _ => works_pure

end TrailM

end ScopeIR
