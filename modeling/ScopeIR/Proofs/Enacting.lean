import ScopeIR.Proofs.Sealing

/-! Operations that are given bodies. Whatever builders do in the bodies, the whole is a run of
single doings, one after another, that ends in the same way. -/

namespace ScopeIR

namespace Workshop

open Session

variable {α β : Type} {p : Terms} {w w' w'' : Workshop} {place : Nat} {s t u : Session} {d : Doing}
  {ds ds' : List Doing} {g : Registry}

/-- Builders were opened inside of earlier ones. -/
def Ordered (w : Workshop) : Prop :=
  ∀ place k, w.worker? place = some k → ∀ q ∈ k.outer, q < place

/-- What runs that keep promises can rely on. -/
structure Ready (p : Terms) (w : Workshop) : Prop where
  staffed : w.Staffed p
  ordered : w.Ordered

/-- The builder at the place is in this session. -/
def IsAt (w : Workshop) (place : Nat) (s : Session) : Prop :=
  ∃ k, w.worker? place = some k ∧ w.session k = s

/-- A run of doings that keep the promises leads to `w'`. -/
def Reaches (p : Terms) (w w' : Workshop) : Prop := ∃ ds, w.performAll ds = some w' ∧ w.Honours p ds

/-- The builder at the place gets to the session `t`, while others stay as they are, but for new
ones. -/
structure Leads (p : Terms) (w : Workshop) (place : Nat) (t : Session) (w' : Workshop) : Prop where
  reaches : w.Reaches p w'
  isAt : w'.IsAt place t
  others {q : Nat} : q ≠ place → q < w.workers.length → w'.worker? q = w.worker? q
  length : w.workers.length ≤ w'.workers.length

section Order

theorem ordered_of_worker? (hw : w.Ordered)
    (h : ∀ {place k'}, w'.worker? place = some k' →
      (∃ k, w.worker? place = some k ∧ k'.outer = k.outer) ∨ ∀ q ∈ k'.outer, q < place) :
    w'.Ordered := by
  intro place k' hk' q hq
  rcases h hk' with ⟨k, hk, houter⟩ | hlt
  · exact hw place k hk q (houter ▸ hq)
  · exact hlt q hq

theorem Ordered.registry {g : Registry} (hw : w.Ordered) : Ordered { w with registry := g } :=
  ordered_of_worker? hw fun hk => .inl ⟨_, hk, rfl⟩

theorem ordered_addWorker {k : Worker} (hw : w.Ordered) (hk : ∀ q ∈ k.outer, q < w.workers.length) :
    (w.addWorker k).Ordered := by
  refine ordered_of_worker? hw fun h => ?_
  rcases worker?_addWorker_cases h with ⟨rfl, rfl⟩ | h
  · exact .inr hk
  · exact .inl ⟨_, h, rfl⟩

theorem ordered_setWorker {k : Worker} {k' : Option Worker} {g : Registry} {refusing : List ScopeId}
    (hw : w.Ordered) (hk : w.worker? place = some k) (hk' : ∀ c ∈ k', c.outer = k.outer) :
    Ordered { w.setWorker place k' with registry := g, refusing } := by
  refine ordered_of_worker? hw fun h => ?_
  rcases worker?_setWorker_cases h with ⟨rfl, heq⟩ | ⟨-, h⟩
  · exact .inl ⟨k, hk, hk' _ heq⟩
  · exact .inl ⟨_, h, rfl⟩

theorem Ordered.perform (hw : w.Ordered) (h : w.perform d = some w') : w'.Ordered := by
  cases d with
  | insertFlags =>
    obtain ⟨g, -, rfl⟩ := insertFlags_of_perform h
    exact hw.registry
  | op o =>
    cases steps_of_perform h with
    | newScope | newLabel | nextTemp | setRefined => exact hw.registry
    | openRoot => exact ordered_addWorker hw.registry fun _ hq => nomatch hq
    | openInside hk =>
      have hlt := lt_of_worker? hk
      refine ordered_addWorker hw.registry fun q hq => ?_
      rcases List.mem_cons.mp hq with rfl | hq
      · exact hlt
      · exact (hw _ _ hk q hq).trans hlt
    | act hk =>
      refine ordered_setWorker hw hk fun c hc => ?_
      rw [← Option.some.inj hc]
    | finish hk | drop hk => exact ordered_setWorker hw hk fun _ hc => nomatch hc

end Order

section Runs

theorem honours_append (h : w.performAll ds = some w') (hds : w.Honours p ds)
    (hds' : w'.Honours p ds') : w.Honours p (ds ++ ds') := by
  induction ds generalizing w with
  | nil =>
    cases h
    exact hds'
  | cons d ds ih =>
    obtain ⟨w₁, hd, h⟩ := Option.bind_eq_some_iff.mp h
    refine ⟨hds.1, fun w₂ hw₂ => ?_⟩
    obtain rfl := Option.some.inj (hd.symm.trans hw₂)
    exact ih h (hds.2 _ hd)

namespace Reaches

theorem refl (w : Workshop) : w.Reaches p w := ⟨[], rfl, trivial⟩

theorem trans (h : w.Reaches p w') (h' : w'.Reaches p w'') : w.Reaches p w'' := by
  obtain ⟨ds, hds, hkept⟩ := h
  obtain ⟨ds', hds', hkept'⟩ := h'
  exact ⟨ds ++ ds', (performAll_append hds).trans hds', honours_append hds hkept hkept'⟩

theorem single (hd : d.Keeps p w) (h : w.perform d = some w') : w.Reaches p w' := by
  refine ⟨[d], ?_, hd, fun _ _ => trivial⟩
  show (w.perform d).bind some = some w'
  rw [h]
  rfl

theorem ready (h : w.Reaches p w') (hw : w.Ready p) : w'.Ready p := by
  obtain ⟨ds, hds, hkept⟩ := h
  refine ⟨(advances_of_run hw.staffed hds hkept).1, ?_⟩
  exact run_of_doings (I := fun _ w => w.Ordered) (fun hw _ h => hw.perform h) hw.ordered hds hkept

theorem advances (h : w.Reaches p w') (hw : w.Ready p) :
    w.registry.Advances p.names w'.registry := by
  obtain ⟨ds, hds, hkept⟩ := h
  exact (advances_of_run hw.staffed hds hkept).2

end Reaches

theorem IsAt.sound (h : w.IsAt place s) (hw : w.Ready p) : s.Sound p := by
  obtain ⟨k, hk, rfl⟩ := h
  exact hw.staffed.session hk

theorem IsAt.registry (h : w.IsAt place s) : s.registry = w.registry := by
  obtain ⟨k, -, rfl⟩ := h
  rfl

/-- A builder around which nothing happened is where it was, but the registry has moved on. -/
theorem IsAt.rests (h : w.IsAt place s) (hw : w.Ordered)
    (hsame : ∀ q ≤ place, w'.worker? q = w.worker? q) :
    w'.IsAt place { s with registry := w'.registry } := by
  obtain ⟨k, hk, rfl⟩ := h
  refine ⟨k, (hsame place le_rfl).trans hk, ?_⟩
  have houter : (w'.session k).outer = (w.session k).outer := by
    refine List.filterMap_congr fun q hq => ?_
    rw [hsame q (hw place k hk q hq).le]
  show Session.mk w'.registry k.builder (w'.session k).outer = _
  rw [houter]
  rfl

/-- The builder at the place goes on, and those around it rest. -/
theorem isAt_setWorker {k : Worker} (k' : Worker) (g : Registry) (refusing : List ScopeId)
    (hw : w.Ordered) (hk : w.worker? place = some k) (hk' : k'.outer = k.outer) :
    IsAt { w.setWorker place (some k') with registry := g, refusing } place
      ⟨g, k'.builder, (w.session k).outer⟩ := by
  refine ⟨k', worker?_setWorker_self hk, ?_⟩
  have houter : k'.outer.filterMap
      (fun q => ((w.setWorker place (some k')).worker? q).map (·.builder)) =
      (w.session k).outer := by
    rw [hk']
    refine List.filterMap_congr fun q hq => ?_
    rw [worker?_setWorker_ne (hw place k hk q hq).ne']
  show Session.mk g k'.builder (k'.outer.filterMap fun q =>
    ((w.setWorker place (some k')).worker? q).map (·.builder)) = _
  rw [houter]

namespace Leads

theorem refl (h : w.IsAt place s) : w.Leads p place s w := ⟨.refl w, h, fun _ _ => rfl, le_rfl⟩

theorem trans (h : w.Leads p place t w') (h' : w'.Leads p place u w'') :
    w.Leads p place u w'' where
  reaches := h.reaches.trans h'.reaches
  isAt := h'.isAt
  others hq hlt := (h'.others hq (hlt.trans_le h.length)).trans (h.others hq hlt)
  length := h.length.trans h'.length

end Leads

end Runs

/-- How an action ends that is a run of doings: where they lead, or by a doing that ends all
building. -/
inductive Enacted (p : Terms) (w : Workshop) (place : Nat) : Except Fault α × Session → Prop
  | settles {outcome : Except Fault α} {t : Session} {w' : Workshop} :
    (∀ e, outcome = .error e → ∃ cause, e = .error cause) → w.Leads p place t w' →
      Enacted p w place (outcome, t)
  | halts {e : Fault} {t : Session} {w' : Workshop} {d : Doing} :
    (∀ cause, e ≠ .error cause) → w.Reaches p w' → d.Keeps p w' →
    w'.halt? d = some (e, t.registry) → Enacted p w place (.error e, t)

/-- In the session `s` of the builder at the place, the action is a run of doings. -/
def Enacts (p : Terms) (w : Workshop) (place : Nat) (s : Session) (x : SessionM α) : Prop :=
  w.Ready p → w.IsAt place s → w.Enacted p place (x s)

section Enacts

theorem enacted_ok {a : α} (h : w.Leads p place t w') :
    w.Enacted p place ((.ok a : Except Fault α), t) := by
  apply Enacted.settles _ h
  intro _ he
  cases he

/-- What the action would have returned does not matter to how it fails. -/
theorem Enacted.error {e : Fault} (h : w.Enacted p place ((.error e : Except Fault α), t)) :
    w.Enacted p place ((.error e : Except Fault β), t) := by
  cases h with
  | settles hcause hleads =>
    apply Enacted.settles _ hleads
    intro e' he
    exact Except.error.inj he ▸ hcause e rfl
  | halts hcause hreaches hd hhalt => exact .halts hcause hreaches hd hhalt

theorem enacted_of_leads {x : Except Fault β × Session} (h : w.Leads p place t w')
    (hx : w'.Enacted p place x) : w.Enacted p place x := by
  cases hx with
  | settles hcause hleads => exact .settles hcause (h.trans hleads)
  | halts hcause hreaches hd hhalt => exact .halts hcause (h.reaches.trans hreaches) hd hhalt

theorem enacts_bind {x : SessionM α} {f : α → SessionM β} (hx : w.Enacts p place s x)
    (hf : ∀ {a t w'}, s.Runs x a t → w.Leads p place t w' → w'.Enacts p place t (f a)) :
    w.Enacts p place s (x >>= f) := by
  intro hw hs
  have henacted := hx hw hs
  rw [bind_apply]
  rcases hr : x s with ⟨e | a, t⟩ <;> rw [hr] at henacted
  · exact henacted.error
  · cases henacted with
    | settles _ hleads =>
      exact enacted_of_leads hleads (hf hr hleads (hleads.reaches.ready hw) hleads.isAt)

/-- What changes nothing and cannot fail. -/
theorem enacts_of_runs {x : SessionM α} {a : α} (h : s.Runs x a s) : w.Enacts p place s x := by
  intro _ hs
  rw [h]
  exact enacted_ok (.refl hs)

theorem enacts_pure {a : α} : w.Enacts p place s (pure a : SessionM α) :=
  enacts_of_runs (runs_pure.mpr ⟨rfl, rfl⟩)

theorem enacts_current : w.Enacts p place s current := enacts_of_runs (runs_current.mpr ⟨rfl, rfl⟩)

theorem enacts_ownScope : w.Enacts p place s ownScope := by
  intro hw hs
  obtain ⟨x, hx⟩ := Registry.has_iff.mp (hs.sound hw).fit.scope
  exact enacts_of_runs (runs_ownScope.mpr ⟨hx, rfl⟩) hw hs

theorem enacts_throw {cause : BuildError} :
    w.Enacts p place s (throw (.error cause) : SessionM α) := fun _ hs =>
  .settles (fun _ he => ⟨cause, (Except.error.inj he).symm⟩) (.refl hs)

theorem enacts_settle {outcome : Except BuildError α} :
    w.Enacts p place s (BuildT.settle outcome : SessionM α) := by
  cases outcome with
  | ok a => exact enacts_pure
  | error cause => exact enacts_throw

theorem enacts_attempt {x : SessionM α} (hx : w.Enacts p place s x) :
    w.Enacts p place s (BuildT.attempt x : SessionM (Except BuildError α)) := by
  intro hw hs
  have henacted := hx hw hs
  rw [attempt_apply]
  generalize x s = outcome at henacted
  cases henacted with
  | @settles outcome t _ hcause hleads =>
    cases outcome with
    | ok a => exact enacted_ok hleads
    | error e =>
      obtain ⟨cause, rfl⟩ := hcause e rfl
      exact enacted_ok hleads
  | @halts e t _ _ hcause hreaches hd hhalt =>
    cases e with
    | error cause => exact absurd rfl (hcause cause)
    | overflow | noScope | sealedFlags => exact .halts hcause hreaches hd hhalt

/-- A single operation of the builder. -/
theorem enacts_run {a : Act} (h : a.Keeps p s) : w.Enacts p place s a.run := by
  intro hw hs
  obtain ⟨k, hk, rfl⟩ := hs
  have houter : (a.run (w.session k)).2.outer = (w.session k).outer :=
    Strokes.outer ((Act.proceeds h).strokes (hw.staffed.session hk))
  have hkeeps : (Doing.op (.act place a)).Keeps p w := by
    refine ⟨fun _ _ hid => absurd hid List.not_mem_nil, fun done hdone => ?_,
      fun _ _ hid => absurd hid (Option.not_mem_none _)⟩
    obtain ⟨k', hk', rfl⟩ := Option.map_eq_some_iff.mp hdone
    obtain rfl := Option.some.inj (hk.symm.trans hk')
    exact h
  have hdone : ∀ {v t}, settled a.run (w.session k) = some (v, t) → ∃ w', w.Leads p place t w' := by
    intro v t ht
    have hstep : w.perform (.op (.act place a)) = some _ :=
      Steps.step (.act hk ht)
    refine ⟨_, .single hkeeps hstep, ?_, ?_, ?_⟩
    · have hat := isAt_setWorker
        { k with builder := t.builder, refused := k.refused || a.refuses (w.session k) }
        t.registry w.refusing hw.ordered hk rfl
      rw [← houter, ← eq_of_settled ht] at hat
      exact hat
    · intro q hq _
      exact worker?_setWorker_ne (Ne.symm hq)
    · exact (List.length_set ..).ge
  rcases settled_or_halt a.run (w.session k) with ⟨v, hv, hcause⟩ | ⟨e, t, hr, hcause, hhalt⟩
  · obtain ⟨w', hleads⟩ := hdone hv
    exact .settles hcause hleads
  · rw [hr]
    exact .halts hcause (.refl w) hkeeps (Option.bind_eq_some_iff.mpr ⟨k, hk, hhalt⟩)

theorem enacts_result {x : SessionM α} {a : Act} (ha : a.run = do let _ ← x) (h : a.Keeps p s) :
    w.Enacts p place s x := by
  intro hw hs
  have henacted := enacts_run h hw hs
  rw [ha, bind_apply] at henacted
  rcases hr : x s with ⟨e | v, t⟩ <;> rw [hr] at henacted
  · exact henacted.error
  · cases henacted with
    | settles _ hleads => exact enacted_ok hleads

/-- Apart from notes of lines and super calls, only closures are promised. -/
theorem keeps_of_handed {a : Act} (hline : a.line? = none) (hsuper : a.isSuper = false)
    (hnames : p.names → ∀ c ∈ a.handed, s.registry.Has c) : a.Keeps p s := by
  refine ⟨hnames, fun _ h => ?_, fun _ h => ?_⟩
  · rw [hline] at h
    cases h
  · rw [hsuper] at h
    cases h

theorem keeps_plain {a : Act} (hhanded : a.handed = []) (hline : a.line? = none)
    (hsuper : a.isSuper = false) : a.Keeps p s := by
  apply keeps_of_handed hline hsuper
  intro _ c hc
  rw [hhanded] at hc
  cases hc

end Enacts

section Bodies

/-- The action is a run of doings from wherever the builder at the place gets. -/
def EnactsLater (p : Terms) (w : Workshop) (place : Nat) (x : SessionM α) : Prop :=
  ∀ t w', w.Leads p place t w' → w'.Enacts p place t x

variable {value test : Operand}

theorem later_bind {x : SessionM α} {f : α → SessionM β} (hx : w.EnactsLater p place x)
    (hf : ∀ a, w.EnactsLater p place (f a)) : w.EnactsLater p place (x >>= f) :=
  fun _ _ h => enacts_bind (hx _ _ h) fun _ h' => hf _ _ _ (h.trans h')

theorem enacts_of_later {x : SessionM α} (hx : w.EnactsLater p place x) : w.Enacts p place s x :=
  fun hw hs => hx _ _ (.refl hs) hw hs

theorem EnactsLater.of_leads {x : SessionM α} (hx : w.EnactsLater p place x)
    (h : w.Leads p place t w') : w'.EnactsLater p place x := fun _ _ h' => hx _ _ (h.trans h')

theorem later_pure {a : α} : w.EnactsLater p place (pure a : SessionM α) := fun _ _ _ => enacts_pure

theorem later_throw {cause : BuildError} :
    w.EnactsLater p place (throw (.error cause) : SessionM α) := fun _ _ _ => enacts_throw

theorem later_settle {outcome : Except BuildError α} :
    w.EnactsLater p place (BuildT.settle outcome : SessionM α) := fun _ _ _ => enacts_settle

theorem later_attempt {x : SessionM α} (hx : w.EnactsLater p place x) :
    w.EnactsLater p place (BuildT.attempt x : SessionM (Except BuildError α)) := fun _ _ h =>
  enacts_attempt (hx _ _ h)

theorem later_act {a : Act} (hhanded : a.handed = []) (hline : a.line? = none)
    (hsuper : a.isSuper = false) : w.EnactsLater p place a.run := fun _ _ _ =>
  enacts_run (keeps_plain hhanded hline hsuper)

theorem later_result {x : SessionM α} {a : Act} (ha : a.run = do let _ ← x)
    (hhanded : a.handed = []) (hline : a.line? = none) (hsuper : a.isSuper = false) :
    w.EnactsLater p place x := fun _ _ _ =>
  enacts_result ha (keeps_plain hhanded hline hsuper)

theorem later_emit {i : Instr} (h : i.closure? = none) : w.EnactsLater p place (emit i) := by
  apply later_act (a := .emit i) _ rfl rfl
  show [i].filterMap Instr.closure? = []
  rw [List.filterMap_cons, h]
  rfl

theorem later_temp : w.EnactsLater p place temp := later_result (a := .temp) rfl rfl rfl rfl

theorem later_newLabelNamed {stem : String} : w.EnactsLater p place (newLabelNamed stem) :=
  later_result (a := .newLabel stem) rfl rfl rfl rfl

theorem later_cond {target : Label} : w.EnactsLater p place (cond target value test) :=
  later_act (a := .cond target value test) rfl rfl rfl

theorem later_condNe {target : Label} : w.EnactsLater p place (condNe target value test) :=
  later_act (a := .condNe target value test) rfl rfl rfl

theorem later_pushRescuer {l : Label} : w.EnactsLater p place (pushRescuer l) :=
  later_act (a := .pushRescuer l) rfl rfl rfl

theorem later_popRescuer : w.EnactsLater p place popRescuer :=
  later_result (a := .popRescuer) rfl rfl rfl rfl

theorem later_methodName {name : Option Symbol} : w.EnactsLater p place
    (updateBuilder fun b => { b with methodName := name }) :=
  later_act (a := .setMethodName name) rfl rfl rfl

theorem later_condWith {target : Label} {body : SessionM Unit}
    (hbody : w.EnactsLater p place body) :
    w.EnactsLater p place (BuildT.condWith target value test body : SessionM Unit) :=
  later_bind later_cond fun _ => hbody

theorem later_condNeWith {target : Label} {body : SessionM Unit}
    (hbody : w.EnactsLater p place body) :
    w.EnactsLater p place (BuildT.condNeWith target value test body : SessionM Unit) :=
  later_bind later_condNe fun _ => hbody

theorem later_ifElse {yes no : SessionM Unit} (hyes : w.EnactsLater p place yes)
    (hno : w.EnactsLater p place no) :
    w.EnactsLater p place (BuildT.ifElse value test yes no : SessionM Unit) := by
  refine later_bind later_newLabelNamed fun _ => later_bind later_newLabelNamed fun _ => ?_
  refine later_bind later_condNe fun _ => later_bind hyes fun _ => ?_
  refine later_bind (later_emit rfl) fun _ => later_bind (later_emit rfl) fun _ => ?_
  exact later_bind hno fun _ => later_emit rfl

theorem later_labelled {stem : String} {body : Label → SessionM α}
    (hbody : ∀ l, w.EnactsLater p place (body l)) :
    w.EnactsLater p place (BuildT.labelled stem body : SessionM α) := by
  refine later_bind later_newLabelNamed fun _ => later_bind (hbody _) fun _ => ?_
  exact later_bind (later_emit rfl) fun _ => later_pure

theorem later_ifNot {body : SessionM Unit} (hbody : w.EnactsLater p place body) :
    w.EnactsLater p place (BuildT.ifNot value test body : SessionM Unit) :=
  later_labelled fun _ => later_condWith hbody

theorem later_forLoop {test increment : Label → SessionM Unit}
    {body : Label → Label → SessionM Unit}
    (htest : ∀ l, w.EnactsLater p place (test l))
    (hincrement : ∀ l, w.EnactsLater p place (increment l))
    (hbody : ∀ after bottom, w.EnactsLater p place (body after bottom)) :
    w.EnactsLater p place (BuildT.forLoop test increment body : SessionM Unit) := by
  refine later_bind later_newLabelNamed fun _ => later_bind later_newLabelNamed fun _ => ?_
  refine later_labelled fun after => later_bind (later_emit rfl) fun _ => ?_
  refine later_bind (htest after) fun _ => later_bind (hbody after _) fun _ => ?_
  refine later_bind (later_emit rfl) fun _ => later_bind (hincrement after) fun _ => ?_
  exact later_emit rfl

theorem later_repeated {body : Nat → SessionM Unit} (hbody : ∀ i, w.EnactsLater p place (body i))
    (start count : Nat) :
    w.EnactsLater p place (BuildT.repeated body start count : SessionM Unit) := by
  induction count generalizing start with
  | zero => exact later_pure
  | succ count ih => exact later_bind (hbody start) fun _ => ih (start + 1)

theorem later_times {count : Nat} {body : Label → Nat → SessionM Unit}
    (hbody : ∀ l i, w.EnactsLater p place (body l i)) :
    w.EnactsLater p place (BuildT.times count body : SessionM Unit) :=
  later_labelled fun l => later_repeated (hbody l) 0 count

theorem later_loop {condition : SessionM Operand} {body : SessionM Unit} {goOn testFirst : Bool}
    (hcondition : w.EnactsLater p place condition) (hbody : w.EnactsLater p place body) :
    w.EnactsLater p place (BuildT.loop condition body goOn testFirst : SessionM Operand) := by
  have hpush : w.EnactsLater p place pushLoop := later_result (a := .pushLoop) rfl rfl rfl rfl
  have hpop : w.EnactsLater p place popLoop := later_result (a := .popLoop) rfl rfl rfl rfl
  have hend : ∀ {frame : LoopFrame} {setResult : Label}, w.EnactsLater p place (do
      emit (.label setResult)
      emit (.copy frame.result .nil)
      emit (.label frame.loopEnd)
      let _ ← popLoop
      return .var frame.result : SessionM Operand) := by
    intro frame setResult
    refine later_bind (later_emit rfl) fun _ => later_bind (later_emit rfl) fun _ => ?_
    exact later_bind (later_emit rfl) fun _ => later_bind hpop fun _ => later_pure
  have hround : ∀ {frame : LoopFrame} {rest : SessionM Operand}, w.EnactsLater p place rest →
      w.EnactsLater p place (do
        emit (.label frame.iterStart)
        emit .threadPoll
        body
        emit (.label frame.iterEnd)
        rest) := by
    intro frame rest hrest
    refine later_bind (later_emit rfl) fun _ => later_bind (later_emit rfl) fun _ => ?_
    exact later_bind hbody fun _ => later_bind (later_emit rfl) fun _ => hrest
  simp only [BuildT.loop, liftM_self]
  refine later_bind hpush fun frame => later_bind later_newLabelNamed fun _ => ?_
  refine later_bind (later_emit rfl) fun _ => ?_
  cases testFirst with
  | true =>
    simp only [if_true]
    refine later_bind hcondition fun _ => later_bind later_cond fun _ => hround ?_
    exact later_bind (later_emit rfl) fun _ => hend
  | false =>
    simp only [Bool.false_eq_true, if_false]
    refine hround (later_bind hcondition fun _ => ?_)
    exact later_bind later_cond fun _ => hend

/-- The closures that wait in an ensure body are there. -/
def Vouches (p : Terms) (w : Workshop) (frame : EnsureFrame) : Prop :=
  p.names → ∀ c ∈ frame.instrs.filterMap Instr.closure?, w.registry.Has c

theorem Vouches.of_leads {frame : EnsureFrame} (hframe : w.Vouches p frame) (hw : w.Ready p)
    (h : w.Leads p place t w') : w'.Vouches p frame := fun hnames c hc =>
  (h.reaches.advances hw).has (hframe hnames c hc)

theorem vouches_of_holds {frame : EnsureFrame} (hw : w.Ready p) (hs : w.IsAt place s)
    (hframe : frame ∈ s.builder.ensures ∨ frame ∈ s.builder.ensureBodies) : w.Vouches p frame := by
  intro hnames c hc
  obtain ⟨i, hi, hic⟩ := List.mem_filterMap.mp hc
  have hmem : frame ∈ s.builder.ensures ++ s.builder.ensureBodies := List.mem_append.mpr hframe
  have hknows := (hs.sound hw).fit.holds hnames frame hmem i hi c hic
  rwa [hs.registry] at hknows

theorem later_framed {frame : EnsureFrame} {a : Act} (hw : w.Ready p) (hframe : w.Vouches p frame)
    (ha : a.handed = frame.instrs.filterMap Instr.closure?) (hline : a.line? = none)
    (hsuper : a.isSuper = false) : w.EnactsLater p place a.run := by
  intro t w' h hw' hs
  refine enacts_run (keeps_of_handed hline hsuper fun hnames c hc => ?_) hw' hs
  rw [hs.registry]
  exact hframe.of_leads hw h hnames c (ha ▸ hc)

/-- What goes on with a frame that was taken off a stack of the builder. -/
theorem later_frame {x : SessionM (Option EnsureFrame)} {f : Option EnsureFrame → SessionM α}
    (hx : w.EnactsLater p place x)
    (hframe : ∀ {s t : Session} {frame}, s.Runs x (some frame) t →
      frame ∈ s.builder.ensures ∨ frame ∈ s.builder.ensureBodies)
    (hnone : w.EnactsLater p place (f none))
    (hsome : ∀ {frame t w'}, w.Leads p place t w' → w'.Ready p → w'.Vouches p frame →
      w'.EnactsLater p place (f (some frame))) : w.EnactsLater p place (x >>= f) := by
  intro s w₁ h₁ hw₁ hs
  refine enacts_bind (hx _ _ h₁) (fun {frame? t w₂} hruns h₂ => ?_) hw₁ hs
  cases frame? with
  | none => exact hnone _ _ (h₁.trans h₂)
  | some frame =>
    have hvouches := (vouches_of_holds hw₁ hs (hframe hruns)).of_leads hw₁ h₂
    exact hsome (h₁.trans h₂) (h₂.reaches.ready hw₁) hvouches _ _ (.refl h₂.isAt)

theorem later_ensure {body cleanup : SessionM Operand} (hbody : w.EnactsLater p place body)
    (hcleanup : w.EnactsLater p place cleanup) :
    w.EnactsLater p place (BuildT.ensure body cleanup : SessionM Operand) := by
  have hexit : w.EnactsLater p place exitEnsureBody :=
    later_result (a := .exitEnsureBody) rfl rfl rfl rfl
  -- what follows the protected body
  have hafter : ∀ {frame : EnsureFrame} {result : Variable} {value : Operand} {t w'},
      w.Leads p place t w' → w'.Ready p → w'.Vouches p frame → w'.EnactsLater p place (do
        emit (.copy result value)
        copyEnsure frame
        jump frame.bodyEnd
        let exception ← temp
        emit (.label frame.dummyRescue)
        emit (.receiveException exception)
        emitEnsureBody frame
        emit (.raise exception)
        emit (.label frame.bodyEnd)
        return .var result : SessionM Operand) := by
    intro frame result value t w' _ hw' hframe
    refine later_bind (later_emit rfl) fun _ => ?_
    refine later_bind (later_framed (a := .copyEnsure frame) hw' hframe rfl rfl rfl) fun _ => ?_
    refine later_bind (later_emit rfl) fun _ => later_bind later_temp fun _ => ?_
    refine later_bind (later_emit rfl) fun _ => later_bind (later_emit rfl) fun _ => ?_
    refine later_bind (later_framed (a := .emitEnsureBody frame) hw' hframe rfl rfl rfl) fun _ => ?_
    exact later_bind (later_emit rfl) fun _ => later_bind (later_emit rfl) fun _ => later_pure
  simp only [BuildT.ensure, liftM_self]
  intro s w₁ h₁
  have hkeeps : (Act.newEnsure).Keeps p s := keeps_plain rfl rfl rfl
  refine enacts_bind (enacts_result rfl hkeeps) fun hnew h₂ => ?_
  have hempty := (newEnsure_of_newEnsure hnew).instrs_eq
  refine enacts_bind (enacts_run (a := .enterEnsureBody _) (keeps_plain ?_ rfl rfl)) fun _ h₃ => ?_
  · show (EnsureFrame.instrs _).filterMap Instr.closure? = []
    rw [hempty]
    rfl
  refine enacts_bind (enacts_attempt (hcleanup _ _ (h₁.trans (h₂.trans h₃)))) fun _ h₄ => ?_
  have hlater := h₁.trans ((h₂.trans h₃).trans h₄)
  refine enacts_of_later (later_frame (hexit.of_leads hlater) ?_ later_throw ?_)
  · intro s t frame hruns
    exact .inr (List.mem_of_mem_head? (runs_exitEnsureBody.mp hruns).1.symm)
  intro frame t w₅ h₅ hw₅ hframe
  have h₅ := hlater.trans h₅
  refine later_bind later_settle fun _ => ?_
  refine later_bind (later_framed (a := .pushEnsure frame) hw₅ hframe rfl rfl rfl) fun _ => ?_
  refine later_bind (later_emit rfl) fun _ => later_bind (later_emit rfl) fun _ => ?_
  refine later_bind later_pushRescuer fun _ => later_bind later_temp fun _ => ?_
  refine later_bind (hbody.of_leads h₅) fun _ => later_bind (later_emit rfl) fun _ => ?_
  refine later_bind later_popRescuer fun _ => ?_
  refine later_frame (later_result (a := .popEnsure) rfl rfl rfl rfl) ?_ later_throw ?_
  · intro s t frame hruns
    exact .inl (List.mem_of_mem_head? (runs_popEnsure.mp hruns).1.symm)
  · intro frame t w₆ h₆ hw₆ hframe
    exact hafter (h₅.trans h₆) hw₆ hframe

theorem later_rescue {body : SessionM Operand} {handler : Variable → SessionM Operand}
    (hbody : w.EnactsLater p place body) (hhandler : ∀ v, w.EnactsLater p place (handler v)) :
    w.EnactsLater p place (BuildT.rescue body handler : SessionM Operand) := by
  have hpush : ∀ {frame : RescueFrame}, w.EnactsLater p place (pushRescue frame) :=
    later_act (a := .pushRescue _) rfl rfl rfl
  have hpop : w.EnactsLater p place popRescue := later_result (a := .popRescue) rfl rfl rfl rfl
  simp only [BuildT.rescue, liftM_self]
  refine later_bind later_temp fun saved => later_bind (later_emit rfl) fun _ => ?_
  refine later_bind later_newLabelNamed fun entry => ?_
  refine later_bind later_newLabelNamed fun rescuer => ?_
  refine later_bind later_newLabelNamed fun after => later_bind (later_emit rfl) fun _ => ?_
  refine later_bind (later_emit rfl) fun _ => later_bind later_pushRescuer fun _ => ?_
  refine later_bind later_temp fun result => later_bind hbody fun _ => ?_
  refine later_bind (later_emit rfl) fun _ => later_bind later_popRescuer fun _ => ?_
  refine later_bind (later_emit rfl) fun _ => later_bind (later_emit rfl) fun _ => ?_
  refine later_bind (later_emit rfl) fun _ => later_bind later_temp fun exception => ?_
  refine later_bind (later_emit rfl) fun _ => later_bind hpush fun _ => ?_
  refine later_bind (later_attempt (hhandler exception)) fun _ => later_bind hpop fun _ => ?_
  refine later_bind later_settle fun _ => later_bind (later_emit rfl) fun _ => ?_
  exact later_bind (later_emit rfl) fun _ => later_pure

end Bodies

section Nesting

variable {kind : ScopeKind} {name : Symbol} {methodName : Option Symbol} {body : SessionM Unit}

/-- Inside of the builder in the session `s` one was opened for a new scope, and is in the session
`t`. -/
structure Opens (p : Terms) (w : Workshop) (s : Session) (kind : ScopeKind) (w' : Workshop)
    (place : Nat) (t : Session) : Prop where
  reaches : w.Reaches p w'
  isAt : w'.IsAt place t
  outer : t.outer = s.builder :: s.outer
  scope : ∃ x, t.registry.scope? t.builder.scope = some x ∧ x.kind = kind ∧
    x.parent = some s.builder.scope ∧ t.builder.Unused x

/-- Apart from operations of builders, only the scopes that are named are promised. -/
theorem keeps_of_named {o : Op} (hact : (Doing.op o).act? w = none)
    (hnames : p.names → ∀ id ∈ (Doing.op o).named, w.registry.Has id) : (Doing.op o).Keeps p w := by
  refine ⟨hnames, fun done hdone => ?_, fun _ _ hid => absurd hid (Option.not_mem_none _)⟩
  rw [hact] at hdone
  cases hdone

theorem keeps_leaving {o : Op} (h : o = .finish place ∨ o = .drop place) :
    (Doing.op o).Keeps p w := by
  rcases h with rfl | rfl <;> exact keeps_of_named rfl fun _ _ hid => absurd hid List.not_mem_nil

/-- The builder around the one inside is back as soon as that one has left. -/
theorem leads_back {u v : Session} {w₁ w₂ : Workshop} {refusing : List ScopeId} {o : Op}
    (hw : w.Ready p) (hs : w.IsAt place s) (hreaches : w.Reaches p w')
    (hold : ∀ q < w.workers.length, w'.worker? q = w.worker? q)
    (hlength : w.workers.length < w'.workers.length) (hleads : w'.Leads p w.workers.length u w₁)
    (ho : o = .finish w.workers.length ∨ o = .drop w.workers.length)
    (hperform : w₁.perform (.op o) = some w₂)
    (hw₂ : w₂ = { w₁.setWorker w.workers.length none with registry := v.registry, refusing }) :
    w.Leads p place { v with builder := s.builder, outer := s.outer } w₂ := by
  subst hw₂
  have hplace : place < w.workers.length := by
    obtain ⟨k, hk, -⟩ := hs
    exact lt_of_worker? hk
  have hsame : ∀ q < w.workers.length,
      (w₁.setWorker w.workers.length none).worker? q = w.worker? q := by
    intro q hq
    rw [worker?_setWorker_ne hq.ne', hleads.others hq.ne (hq.trans hlength), hold q hq]
  refine ⟨hreaches.trans (hleads.reaches.trans (.single (keeps_leaving ho) hperform)), ?_,
    fun _ hq => hsame _ hq, ?_⟩
  · exact hs.rests hw.ordered fun q hq => hsame q (hq.trans_lt hplace)
  · show w.workers.length ≤ (w₁.workers.set w.workers.length none).length
    rw [List.length_set]
    exact hlength.le.trans hleads.length

/-- The builder inside works and leaves, with or without finishing its scope. -/
theorem enacted_within {b : Builder} (hw : w.Ready p) (hs : w.IsAt place s)
    (hreaches : w.Reaches p w')
    (hold : ∀ q < w.workers.length, w'.worker? q = w.worker? q)
    (hlength : w.workers.length < w'.workers.length)
    (ht : w'.IsAt w.workers.length ⟨g, b, s.builder :: s.outer⟩)
    (hbody : w'.Enacts p w.workers.length ⟨g, b, s.builder :: s.outer⟩ body) :
    w.Enacted p place ((BuildT.within b (do body; finish) : SessionM ScopeId)
      { s with registry := g }) := by
  have henacted := hbody (hreaches.ready hw) ht
  have happly : (BuildT.within b (do body; finish) : SessionM ScopeId) { s with registry := g } =
      (((do body; finish : SessionM ScopeId) ⟨g, b, s.builder :: s.outer⟩).1,
        { ((do body; finish : SessionM ScopeId) ⟨g, b, s.builder :: s.outer⟩).2 with
          builder := s.builder, outer := s.outer }) := rfl
  rw [happly, bind_apply]
  rcases hr : body ⟨g, b, s.builder :: s.outer⟩ with ⟨e | _, u⟩ <;> rw [hr] at henacted
  · cases henacted with
    | settles hcause hleads =>
      obtain ⟨cause, rfl⟩ := hcause e rfl
      obtain ⟨k, hk, rfl⟩ := hleads.isAt
      exact .settles (fun _ he => ⟨cause, (Except.error.inj he).symm⟩)
        (leads_back hw hs hreaches hold hlength hleads (.inr rfl)
          (Steps.step (.drop hk)) rfl)
    | halts hcause hreaches' hd hhalt => exact .halts hcause (hreaches.trans hreaches') hd hhalt
  · cases henacted with
    | @settles _ _ w₁ _ hleads =>
      obtain ⟨k, hk, rfl⟩ := hleads.isAt
      have hdone : ∀ {id? : Option ScopeId} {v : Session},
          settled finish (w₁.session k) = some (id?, v) →
          ∃ w₂, w.Leads p place { v with builder := s.builder, outer := s.outer } w₂ := by
        intro id? v hv
        exact ⟨_, leads_back hw hs hreaches hold hlength hleads (.inl rfl)
          (Steps.step (.finish hk hv)) rfl⟩
      dsimp only
      rcases settled_or_halt finish (w₁.session k) with
        ⟨id?, hv, hcause⟩ | ⟨e, v, hf, hcause, hhalt⟩
      · obtain ⟨w₂, hleads⟩ := hdone hv
        exact .settles hcause hleads
      · rw [hf]
        exact .halts hcause (hreaches.trans hleads.reaches) (keeps_leaving (.inl rfl))
          (Option.bind_eq_some_iff.mpr ⟨k, hk, hhalt⟩)

theorem enacts_newScope {file : String} {line : Int32} :
    w.Enacts p place s (liftM (RegistryM.newScope kind name file line (some s.builder.scope))) := by
  intro hw hs
  have hown : s.registry.Has s.builder.scope := (hs.sound hw).fit.scope
  have hkeeps : (Doing.op (.newScope kind name file line (some s.builder.scope))).Keeps p w := by
    apply keeps_of_named rfl
    intro _ id hid
    rw [← hs.registry, List.mem_singleton.mp hid]
    exact hown
  rw [liftM_apply]
  rcases hr : RegistryM.newScope kind name file line (some s.builder.scope) s.registry with
    e | ⟨id, g⟩
  · refine .halts ?_ (.refl w) hkeeps ?_
    · refine Registry.blames_newScope (P := fun e => ∀ cause, e ≠ .error cause) ?_ ?_ ?_ e hr
      · exact fun _ _ he => Fault.noConfusion he
      · exact fun _ _ he => Fault.noConfusion he
      · intro q hq
        rwa [← Option.some.inj hq]
    · rw [hs.registry] at hr ⊢
      show RegistryM.halt? _ w.registry = _
      rw [RegistryM.halt?, hr]
  · rw [hs.registry] at hr
    have hperform : w.perform (.op (.newScope kind name file line (some s.builder.scope))) =
        some { w with registry := g } := by
      show (w.change _).map _ = _
      rw [change, hr]
      rfl
    apply enacted_ok
    refine ⟨.single hkeeps hperform, ?_, fun _ _ => rfl, le_rfl⟩
    exact hs.rests hw.ordered fun _ _ => rfl

theorem openBuilder_of_has {id : ScopeId} {coverage : Coverage} (h : g.Has id) :
    ∃ b g', g.Runs (openBuilder id false coverage) b g' := by
  rcases hr : openBuilder id false coverage g with e | ⟨b, g'⟩
  · exact (Registry.blames_openBuilder (P := fun _ => False) h e hr).elim
  · exact ⟨b, g', hr⟩

/-- A builder can be opened inside of one that is there. -/
theorem opens_of_openBuilder {id : ScopeId} {b : Builder} {g' : Registry} (hw : w.Ready p)
    (hs : w.IsAt place s) (hid : w.registry.Has id)
    (h : s.registry.Runs (openBuilder id false s.builder.coverage) b g') :
    ∃ w', w.Reaches p w' ∧ (∀ q < w.workers.length, w'.worker? q = w.worker? q) ∧
      w.workers.length < w'.workers.length ∧
      w'.IsAt w.workers.length ⟨g', b, s.builder :: s.outer⟩ := by
  obtain ⟨k, hk, rfl⟩ := hs
  have hkeeps : (Doing.op (.openInside place id false)).Keeps p w := by
    apply keeps_of_named rfl
    intro _ id' hid'
    rwa [List.mem_singleton.mp hid']
  have hperform : w.perform (.op (.openInside place id false)) =
      some (addWorker { w with registry := g' } ⟨b, place :: k.outer, false⟩) :=
    Steps.step (.openInside hk h)
  have hsame : ∀ q < w.workers.length,
      (addWorker { w with registry := g' } ⟨b, place :: k.outer, false⟩).worker? q = w.worker? q :=
    fun q hq => worker?_addWorker_of_lt hq
  refine ⟨_, .single hkeeps hperform, hsame, ?_, ?_⟩
  · show w.workers.length < (w.workers ++ [_]).length
    rw [List.length_append, List.length_singleton]
    exact Nat.lt_succ_self _
  · have hself : (addWorker { w with registry := g' } ⟨b, place :: k.outer, false⟩).worker?
        w.workers.length = some ⟨b, place :: k.outer, false⟩ := by
      unfold worker? addWorker
      rw [List.getElem?_concat_length]
      rfl
    have hlt := lt_of_worker? hk
    have houter : (place :: k.outer).filterMap (fun q => ((addWorker { w with registry := g' }
        ⟨b, place :: k.outer, false⟩).worker? q).map (·.builder)) =
        k.builder :: (w.session k).outer := by
      rw [List.filterMap_cons, hsame place hlt, hk]
      refine congrArg (k.builder :: ·) (List.filterMap_congr fun q hq => ?_)
      rw [hsame q ((hw.ordered place k hk q hq).trans hlt)]
    refine ⟨_, hself, ?_⟩
    show Session.mk g' b _ = _
    exact congrArg (Session.mk g' b) houter

/-- What is done before a scope is finished that was added for it. -/
theorem enacts_inScope {id : ScopeId} {x : Scope} (hx : s.registry.scope? id = some x)
    (hkind : x.kind = kind) (hparent : x.parent = some s.builder.scope)
    (hbody : ∀ {t w' inner}, w.Opens p s kind w' inner t → w'.EnactsLater p inner body) :
    w.Enacts p place s (BuildT.inScope id false do
      body
      finish : SessionM ScopeId) := by
  intro hw hs
  have hid : s.registry.Has id := .of_scope? hx
  obtain ⟨b, g, hb⟩ := @openBuilder_of_has _ _ s.builder.coverage hid
  obtain ⟨w', hreaches, hold, hlength, hinner⟩ :=
    opens_of_openBuilder hw hs (hs.registry ▸ hid) hb
  have hopens : w.Opens p s kind w' w.workers.length ⟨g, b, s.builder :: s.outer⟩ := by
    obtain ⟨hopened, hgrows, -⟩ := runs_openBuilder hb
    obtain ⟨y, hy, hxy⟩ := hgrows.scope hx
    obtain ⟨-, z, hz, hunused⟩ := unused_of_openBuilder hb
    have hzy : z = y := Option.some.inj (hz.symm.trans (hopened.scope ▸ hy))
    refine ⟨hreaches, hinner, rfl, z, hz, ?_, ?_, hunused⟩
    · rw [hzy, hxy.kind_eq, hkind]
    · rw [hzy, hxy.parent_eq, hparent]
  have hcurrent : s.Runs current s.builder s := runs_current.mpr ⟨rfl, rfl⟩
  have hopen :
      s.Runs (liftM (openBuilder id false s.builder.coverage)) b { s with registry := g } :=
    runs_liftM.mpr ⟨g, hb, rfl⟩
  have hbody : w'.EnactsLater p w.workers.length body := hbody hopens
  simp only [BuildT.inScope, liftM_self]
  rw [bind_apply, hcurrent]
  show w.Enacted p place (((liftM (openBuilder id false s.builder.coverage) : SessionM Builder) >>=
    fun child => BuildT.within child do body; finish) s)
  rw [bind_apply, hopen]
  exact enacted_within hw hs hreaches hold hlength hinner (enacts_of_later hbody)

theorem later_child (hbody : ∀ {s t w₁ w₂ inner}, w.Leads p place s w₁ →
      w₁.Opens p s kind w₂ inner t → w₂.EnactsLater p inner body) :
    w.EnactsLater p place (BuildT.child kind name methodName body : SessionM ScopeId) := by
  intro s w₁ h₁
  have hbody' : ∀ {s t w₁ w₂ inner}, w.Leads p place s w₁ → w₁.Opens p s kind w₂ inner t →
      w₂.EnactsLater p inner (do
        updateBuilder fun b => { b with methodName }
        if kind.isClosure then placeClosureStart
        body) := by
    intro s t w₁ w₂ inner hleads hopens
    have hbody := hbody hleads hopens
    apply later_bind later_methodName
    intro _
    split
    · exact later_bind (later_act (a := .placeClosureStart) rfl rfl rfl) fun _ => hbody
    · exact hbody
  have hassoc : (do
      updateBuilder fun b => { b with methodName }
      if kind.isClosure then placeClosureStart
      body
      finish : SessionM ScopeId) = (do
        (do
          updateBuilder fun b => { b with methodName }
          if kind.isClosure then placeClosureStart
          body)
        finish) := by
    split <;> simp only [bind_assoc]
  simp only [BuildT.child, liftM_self]
  refine enacts_bind enacts_current fun hcurrent h₂ => ?_
  obtain ⟨rfl, rfl⟩ := runs_current.mp hcurrent
  refine enacts_bind enacts_ownScope fun hown h₃ => ?_
  obtain ⟨-, rfl⟩ := runs_ownScope.mp hown
  refine enacts_bind enacts_newScope fun hnew h₄ => ?_
  obtain ⟨g, hg, rfl⟩ := runs_liftM.mp hnew
  obtain ⟨-, -, x, hx, hkind, hparent⟩ := Registry.runs_newScope hg
  have hleads := (h₁.trans h₂).trans (h₃.trans h₄)
  rw [hassoc]
  exact enacts_inScope hx hkind hparent fun hopens => hbody' hleads hopens

theorem later_nested (hbody : ∀ {s t w₁ w₂ inner}, w.Leads p place s w₁ →
      w₁.Opens p s kind w₂ inner t → w₂.EnactsLater p inner body) :
    w.EnactsLater p place (BuildT.nested kind name body : SessionM ScopeId) := later_child hbody

theorem later_block {method : Symbol} (hbody : ∀ {s t w₁ w₂ inner}, w.Leads p place s w₁ →
      w₁.Opens p s .closure w₂ inner t → w₂.EnactsLater p inner body) :
    w.EnactsLater p place (BuildT.block method body : SessionM Operand) := by
  simp only [BuildT.block, liftM_self]
  refine later_bind (fun _ _ _ => enacts_current) fun _ => later_bind later_methodName fun _ => ?_
  refine later_bind (later_attempt (later_child hbody)) fun _ => ?_
  refine later_bind later_methodName fun _ => ?_
  exact later_bind later_settle fun _ => later_pure

end Nesting

end Workshop

end ScopeIR
