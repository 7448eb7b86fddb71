import ScopeIR.Proofs.Balances

/-! Scopes from the opening of their builders until they are finished. A program that writes what it
asks for leaves a list that writes all temporaries its scope counts, unless a super call is
refused. -/

namespace ScopeIR

theorem results_withoutLines (xs : List Instr) : results (withoutLines xs) = results xs := by
  induction xs with
  | nil => rfl
  | cons i xs ih =>
    have hsplit : withoutLines (i :: xs) = withoutLines [i] ++ withoutLines xs :=
      withoutLines_append [i] xs
    rw [hsplit, results_append, ih, results_cons]
    cases i <;> rfl

theorem results_prologue {b : Builder} : results b.prologue = [] := by
  unfold Builder.prologue
  cases b.closureStart <;> rfl

namespace Registry

variable {g g' : Registry} {id : ScopeId}

theorem Gains.takesNone {x : Scope} (h : g.Gains x g') : g.TakesNone g' := by
  intro id y hy
  rw [temps_of_scope? hy, temps_of_scope? (h.old hy)]

/-- What the new scope's own builder takes is taken from no scope that was there before. -/
theorem TakesNone.trans_new {g₁ g₂ : Registry} (h : g.TakesNone g₁) (hg : g.GrowsTo g₁)
    (hnew : g.scope? id = none) (h' : g₁.TakesFrom id g₂) : g.TakesNone g₂ := by
  intro id' x hx
  obtain ⟨y, hy, -⟩ := hg.scope hx
  rw [h' id' y (fun hid => by cases (hid ▸ hx).symm.trans hnew) hy, h id' x hx]

end Registry

namespace Session

variable {s t u : Session} {x : Scope} {id : ScopeId}

/-- The builder was just opened for the scope `x`, in which lines are not traced. -/
structure Begins (x : Scope) (s : Session) : Prop where
  own : s.registry.scope? s.builder.scope = some x
  fresh : s.builder.Fresh
  needsYieldBlock : s.builder.needsYieldBlock = false
  yieldClosure : s.builder.yieldClosure = none
  fullTrace : s.registry.config.fullTrace = false

namespace Begins

theorem not_holds (h : s.Begins x) {v : Variable} : ¬ s.Holds [] v := by
  rintro (hv | ⟨f, hf, -⟩ | hv)
  · cases hv
  · rw [h.fresh.loops] at hf
    cases hf
  · rw [h.yieldClosure] at hv
    cases hv

theorem minds (h : s.Begins x) : s.Minds x [] :=
  ⟨⟨x, h.own, .refl x⟩, h.fresh.borrowsTemps, h.fullTrace, fun hv => absurd hv h.not_holds⟩

theorem needs (h : s.Begins x) : s.builder.needsYieldBlock = s.builder.yieldClosure.isSome := by
  rw [h.needsYieldBlock, h.yieldClosure]
  rfl

end Begins

section Finishing

variable {front : List Instr}

/-- What is stored is the list with a load of the block in front, if one is asked for. Nothing is
taken for that. -/
structure Seals (s t : Session) (id : ScopeId) : Prop where
  takes : s.registry.TakesNone t.registry
  id_eq : id = s.builder.scope
  stored : ∃ y front, t.registry.scope? id = some y ∧
    y.instrs = some (front ++ s.builder.instrs.toList) ∧
    results front = s.builder.yieldClosure.toList

theorem seals_of_finish
    (hneeds : s.builder.needsYieldBlock = s.builder.yieldClosure.isSome)
    (h : s.Runs finish id t) : s.Seals t id := by
  obtain ⟨x, u, -, -, hbodies, hload, hstore⟩ := runs_finish h
  have hloaded : ∃ front, s.registry.GrowsTo u.registry ∧ s.registry.TakesNone u.registry ∧
      u.builder.scope = s.builder.scope ∧
      u.builder.instrs.toList = front ++ s.builder.instrs.toList ∧
      results front = s.builder.yieldClosure.toList := by
    obtain ⟨hnot, rfl⟩ | ⟨hyields, v, w, hv, rfl⟩ := runs_loadBlock hbodies hload
    · rw [hneeds, Option.isSome_eq_false_iff, Option.isNone_iff_eq_none] at hnot
      refine ⟨[], .refl _, Registry.takesNone_of_scopes rfl, rfl, rfl, ?_⟩
      rw [hnot]
      rfl
    · obtain ⟨hsome, rfl⟩ | ⟨hnone, -⟩ := runs_yieldClosureVar hv
      · rw [hsome]
        exact ⟨[.loadImplicitClosure v], Registry.growsTo_recorded _ _,
          Registry.takesNone_of_scopes rfl, rfl, Array.toList_append, rfl⟩
      · rw [hneeds, hnone] at hyields
        cases hyields
  obtain ⟨front, hgrows, htakes, hscope, hlist, hfront⟩ := hloaded
  obtain ⟨y, _, flags, hy, -, -, rfl, rfl⟩ := runs_storeFinal hstore
  have hrecord := Registry.growsTo_recorded u.registry
    (.scopeFinished u.builder.scope u.builder.instrs.size flags)
  refine ⟨?_, hscope, _, front, Registry.scope?_setScope_self hy, ?_, hfront⟩
  · refine htakes.trans hgrows (.trans hrecord ?_ (Registry.takesNone_setScope hy rfl))
    exact Registry.takesNone_of_scopes rfl
  · rw [← hlist]

end Finishing

section Opening

theorem begins_of_openBuilder {g g' : Registry} {coverage : Coverage} {b : Builder}
    (outer : List Builder) (h : g.Runs (openBuilder id false coverage) b g')
    (hs : g.config.fullTrace = false) : g.TakesNone g' ∧
      ∃ x, g.scope? id = some x ∧ Begins x ⟨g', b, outer⟩ := by
  obtain ⟨hopened, -, -⟩ := runs_openBuilder h
  obtain ⟨x, hx, rfl, rfl⟩ := eq_of_openBuilder h
  exact ⟨Registry.takesNone_of_scopes rfl, x, hx, hx, hopened.toFresh, rfl, rfl, hs⟩

/-- Whoever opens a builder for a scope finds it so. -/
theorem begins_of_openRoot {g g' : Registry} {b : Builder} (h : g.Runs (openRoot id) b g')
    (hs : g.config.fullTrace = false) : ∃ x, g.scope? id = some x ∧ Begins x ⟨g', b, []⟩ :=
  (begins_of_openBuilder [] (runs_openRoot.mp h) hs).2

theorem Begins.naming (method : Option Symbol) (h : s.Begins x) : (s.naming method).Begins x where
  own := h.own
  fresh := ⟨h.fresh.rescues, h.fresh.ensures, h.fresh.ensureBodies, h.fresh.rescuers, h.fresh.loops,
    h.fresh.borrowsTemps, h.fresh.start, h.fresh.list⟩
  needsYieldBlock := h.needsYieldBlock
  yieldClosure := h.yieldClosure
  fullTrace := h.fullTrace

/-- The label at the start may be there already. -/
theorem Begins.of_placeClosureStart {v : Unit} (hs : s.Begins x)
    (hline : s.builder.line.pending = none) (hnone : s.builder.closureStart = none)
    (h : s.Runs placeClosureStart v t) : t.Begins x ∧ s.registry.GrowsTo t.registry ∧
      s.registry.TakesNone t.registry ∧ t.builder.scope = s.builder.scope := by
  obtain ⟨hgrows, -, hfresh, hscope, -⟩ := runs_placeClosureStart h hs.fresh hline hnone
  have hsame : s.SameScopes t := by
    obtain ⟨_, _, hstart, h⟩ := runs_bind.mp h
    obtain ⟨rfl, rfl⟩ := runs_newClosureStart.mp hstart
    have h := sameScopes_of_emit h hs.fullTrace
    exact ⟨h.scopes, h.needs, h.yieldClosure⟩
  refine ⟨⟨?_, hfresh, ?_, ?_, ?_⟩, hgrows, Registry.takesNone_of_scopes hsame.scopes, hscope⟩
  · rw [hscope, Registry.scope?, hsame.scopes]
    exact hs.own
  · rw [hsame.needs, hs.needsYieldBlock]
  · rw [hsame.yieldClosure, hs.yieldClosure]
  · rw [hgrows.config, hs.fullTrace]

/-- A new scope is opened and finished around the body. -/
theorem runs_child {kind : ScopeKind} {name : Symbol} {methodName : Option Symbol}
    {body : LedgerM Unit} {k k' : Ledger} (hs : s.registry.config.fullTrace = false)
    (h : LedgerM.Runs (BuildT.child kind name methodName body) s k id t k') :
    ∃ x u v w, Begins x u ∧ x.nextTemp = 0 ∧ s.registry.GrowsTo u.registry ∧
      s.registry.TakesNone u.registry ∧ s.registry.scope? u.builder.scope = none ∧
      LedgerM.Runs body u k () v k' ∧ v.Runs finish id w ∧
      t = { w with builder := s.builder, outer := s.outer } := by
  unfold BuildT.child BuildT.inScope at h
  simp only [↓LedgerM.runs_liftM_bind, LedgerM.runs_bind, runs_current, runs_ownScope,
    LedgerM.runs_within, LedgerM.runs_liftM_registry, runs_liftM] at h
  obtain ⟨_, _, ⟨rfl, rfl⟩, y, _, ⟨-, rfl⟩, new, _, _, ⟨⟨g, hnew, rfl⟩, rfl⟩, _, _, ⟨rfl, rfl⟩, b,
    _, _, ⟨⟨g', hopen, rfl⟩, rfl⟩, w, ⟨_, u, hname, h⟩, rfl⟩ := h
  obtain ⟨x, hgains, hx⟩ := Registry.gains_of_newScope hnew
  obtain ⟨hgrows, hid, -⟩ := Registry.runs_newScope hnew
  obtain ⟨hopened, hgrows', -⟩ := runs_openBuilder hopen
  obtain ⟨htakes, x', hx', hbegins⟩ := begins_of_openBuilder (s.builder :: s.outer) hopen
    (by rw [hgrows.config, hs])
  obtain rfl : x' = x := by
    rw [Registry.scope?, hid, hgains.new] at hx'
    exact (Option.some.inj hx').symm
  have hnone : s.registry.scope? b.scope = none :=
    Registry.scope?_eq_none (by rw [hopened.scope, hid])
  have hnext : x'.nextTemp = 0 := by
    have hnext := (Registry.counters_of_newScope hnew).2
    rwa [Registry.temps_of_scope? hx', ← UInt64.toNat_zero, UInt64.toNat_inj] at hnext
  obtain rfl := runs_updateBuilder.mp hname
  have hbegins := hbegins.naming methodName
  have hgrows' := hgrows.trans hgrows'
  have htakes := hgains.takesNone.trans hgrows htakes
  split at h <;> simp only [↓LedgerM.runs_liftM_bind, LedgerM.runs_bind, LedgerM.runs_liftM] at h
  · obtain ⟨_, v, hstart, _, v', _, hbody, hfinish, rfl⟩ := h
    obtain ⟨hv, hgrows₂, htakes₂, hscope⟩ :=
      hbegins.of_placeClosureStart hopened.line hopened.closureStart hstart
    exact ⟨_, v, v', w, hv, hnext, hgrows'.trans hgrows₂, htakes.trans hgrows' htakes₂,
      by rwa [hscope], hbody, hfinish, rfl⟩
  · obtain ⟨_, v, _, hbody, hfinish, rfl⟩ := h
    exact ⟨_, _, v, w, hbegins, hnext, hgrows', htakes, hnone, hbody, hfinish, rfl⟩

end Opening

end Session

namespace LedgerM

open Session

variable {α : Type} {body : LedgerM Unit}

/-- For the scope around it, building a scope only adds to the registry. -/
theorem grows_of_child {s t : Session} {k k' : Ledger} {kind : ScopeKind} {name : Symbol}
    {methodName : Option Symbol} {id : ScopeId} (hbody : body.Balances)
    (hs : s.registry.config.fullTrace = false)
    (h : Runs (BuildT.child kind name methodName body) s k id t k') :
    ∃ g, t = { s with registry := g } ∧ s.registry.GrowsTo g ∧ s.registry.TakesNone g := by
  obtain ⟨x, u, v, w, hu, -, hgrows, htakes, hnone, hruns, hfinish, rfl⟩ := runs_child hs h
  obtain ⟨xs, l, -, hv⟩ := hbody hu.minds hruns
  have hseals := seals_of_finish (hv.spends.needs hu.needs) hfinish
  obtain ⟨front, hfinishes⟩ := finishes_of_finish hfinish
  obtain ⟨g, y, flags, hg, -, hstored⟩ := hfinishes.stores
  refine ⟨w.registry, rfl, ?_, ?_⟩
  · rw [hstored]
    refine .setScope_new (hgrows.trans (hv.adds.registry.trans hg)) ?_
    rw [hfinishes.id_eq, hv.adds.scope, hnone]
  · have htakes := htakes.trans_new hgrows hnone hv.spends.others
    exact htakes.trans (hgrows.trans hv.adds.registry) hseals.takes

theorem balances_nested {kind : ScopeKind} {name : Symbol} (hbody : body.Balances) :
    Balances (apart (BuildT.nested kind name body)) := by
  intro x s t owed k k' id hs h
  obtain ⟨⟨_, hrun⟩, rfl⟩ := runs_apart.mp h
  obtain ⟨g, rfl, hg, htakes⟩ := grows_of_child hbody hs.fullTrace hrun
  exact (fulfils_of_registry hs hg htakes).clears.settles

theorem balances_block {method : Symbol} (hbody : body.Balances) :
    Balances (apart (BuildT.block method body)) := by
  intro x s t owed k k' o hs h
  obtain ⟨⟨_, hrun⟩, rfl⟩ := runs_apart.mp h
  rw [BuildT.block] at hrun
  simp only [↓runs_liftM_bind, runs_bind, Session.runs_current, runs_updateBuilder, runs_pure,
    runs_settle] at hrun
  obtain ⟨_, _, ⟨rfl, rfl⟩, _, _, rfl, built, u, _, hchild, _, _, rfl, id, _, _, ⟨rfl, rfl, rfl⟩,
    rfl, rfl, rfl⟩ := hrun
  obtain ⟨g, rfl, hg, htakes⟩ := grows_of_child (s := s.naming (some method)) hbody hs.fullTrace
    (runs_attempt.mp hchild)
  exact (fulfils_of_registry hs hg htakes).clears.settles

end LedgerM

namespace Recipe

open Session LedgerM

variable {α : Type}

/-- Whatever a program takes it writes, or enters in its ledger. -/
theorem balances_build (p : Recipe α) : p.build.Balances := by
  induction p with
  | pure => exact balances_pure
  | bind _ _ hx hf => exact balances_bind hx hf
  | request r =>
    intro x s t owed k k' a hs h
    rw [build] at h
    simp only [↓runs_liftM_bind, LedgerM.runs_bind, Session.runs_get, runs_enter,
      LedgerM.runs_pure] at h
    obtain ⟨_, _, ⟨rfl, rfl⟩, a, u, hrun, _, _, _, ⟨rfl, rfl⟩, rfl, rfl, rfl⟩ := h
    obtain ⟨xs, h⟩ := Request.fulfils hs hrun
    exact ⟨xs, _, rfl, h⟩
  | condWith _ _ _ _ hbody => exact balances_condWith hbody
  | condNeWith _ _ _ _ hbody => exact balances_condNeWith hbody
  | ifElse _ _ _ _ hyes hno => exact balances_ifElse hyes hno
  | ifNot _ _ _ hbody => exact balances_ifNot hbody
  | labelled _ _ hbody => exact balances_labelled hbody
  | forLoop _ _ _ htest hincrement hbody => exact balances_forLoop htest hincrement hbody
  | times _ _ hbody => exact balances_times hbody
  | loop _ _ _ _ hcondition hbody => exact balances_returning (supplies_loop hcondition hbody)
  | ensure _ _ hbody hcleanup => exact balances_returning (supplies_ensure hbody hcleanup)
  | rescue _ _ hbody hhandler => exact balances_returning (supplies_rescue hbody hhandler)
  | block _ _ hbody => exact balances_block hbody
  | nested _ _ _ hbody => exact balances_nested hbody

end Recipe

section Finished

open Session

variable {α : Type} {p : Recipe α} {a : α} {x : Scope} {s t u : Session} {k : Ledger} {id : ScopeId}

/-- The finished list writes what the program added, and the block if it is loaded. -/
theorem results_of_seals {xs : List Instr} (hs : s.Begins x) (ht : s.Adds t xs)
    (hu : t.Seals u id) : ∃ y ys, u.registry.scope? id = some y ∧ y.instrs = some ys ∧
      y.nextTemp.toNat = t.registry.temps t.builder.scope ∧
      ∀ v, v ∈ results ys ↔ t.builder.yieldClosure = some v ∨ v ∈ results xs := by
  obtain ⟨y, front, hy, hinstrs, hfront⟩ := hu.stored
  refine ⟨y, _, hy, hinstrs, ?_, fun v => ?_⟩
  · obtain ⟨z, hz, -⟩ := ht.registry.scope hs.own
    rw [← Registry.temps_of_scope? hy, hu.id_eq]
    exact hu.takes _ z (ht.scope ▸ hz)
  have hstart : withoutLines s.builder.instrs.toList = s.builder.prologue ++ [] := by
    rw [hs.fresh.list, List.append_nil]
    unfold Builder.prologue
    cases s.builder.closureStart <;> rfl
  have hlist := ht.list hstart
  rw [if_pos hs.fresh.ensureBodies, List.append_nil] at hlist
  rw [results_append, List.mem_append, hfront, ← results_withoutLines t.builder.instrs.toList,
    hlist, results_append, results_prologue, List.nil_append, results_withoutLines,
    Option.mem_toList]

/-- If a program writes the temporaries that it asks for, and else none but what it was handed, then
the list writes exactly the temporaries that the scope counts, save what refused super calls return,
which is written only where the program does it. Whatever an operation returned is counted. -/
theorem results_of_finish (hs : s.Begins x) (hnew : x.nextTemp = 0)
    (hbuild : LedgerM.Runs p.build s {} a t k) (hasked : ∀ v ∈ k.asked, v ∈ k.written)
    (hhanded : ∀ i, x.temp i ∈ k.written → x.temp i ∈ k.returned)
    (hfinish : t.Runs finish id u) :
    ∃ y xs, u.registry.scope? id = some y ∧ y.instrs = some xs ∧
      (∀ i, x.temp i ∈ results xs ↔
        i < y.nextTemp ∧ (x.temp i ∈ k.refused → x.temp i ∈ k.written)) ∧
      (∀ i, x.temp i ∈ k.returned → i < y.nextTemp) ∧
      ∀ v ∈ k.refused, ∃ i < y.nextTemp, v = x.temp i := by
  obtain ⟨ys, l, hl, ht⟩ := p.balances_build hs.minds hbuild
  obtain rfl : k = l := hl
  have hseals := seals_of_finish (ht.spends.needs hs.needs) hfinish
  obtain ⟨y, xs, hy, hinstrs, hcount, hresults⟩ := results_of_seals hs ht.adds hseals
  have ht' := ht.minds hs.minds
  have hstart : s.temps = 0 := by
    rw [temps, hs.minds.tempScope, Registry.temps_of_scope? hs.own, hnew]
    rfl
  have hlt (i : UInt64) : i < y.nextTemp ↔ i.toNat < t.temps := by
    rw [UInt64.lt_iff_toNat_lt, hcount, temps, ht'.tempScope]
  have hrefused (v : Variable) (hv : v ∈ k.refused) : ∃ i < y.nextTemp, v = x.temp i := by
    obtain ⟨⟨i, rfl, -, hi⟩, -⟩ := ht.spends.refused hv
    exact ⟨i, (hlt i).mpr hi, rfl⟩
  refine ⟨y, xs, hy, hinstrs, fun i => ?_, fun i hi => (hlt i).mpr (ht.spends.returned hi),
    hrefused⟩
  rw [hresults, hlt]
  constructor
  · rintro (hi | hi)
    · have hholds : t.Holds [] (x.temp i) := .inr (.inr hi)
      exact ⟨ht'.holds hholds, fun hr => absurd hholds (ht.spends.refused hr).2.2⟩
    · refine ⟨?_, fun hr => (ht.spends.refused hr).2.1 hi⟩
      rcases ht.spends.known hi with hi | hi | hi
      · exact hi.lt
      · exact ht.spends.returned (hhanded i hi)
      · exact absurd hi hs.not_holds
  · rintro ⟨hi, hwritten⟩
    have htakes : s.Takes x t (x.temp i) := ⟨i, rfl, by rw [hstart]; exact Nat.zero_le _, hi⟩
    rcases ht.spends.filled htakes with hi | hi | hi | hi | hi
    · exact .inr hi
    · exact absurd hi List.not_mem_nil
    · exact .inr (ht.spends.written (hasked _ hi))
    · exact .inr (ht.spends.written (hwritten hi))
    · exact .inl hi

/-- A super call at the top level, with a cleanup after it. -/
def Recipe.superAtTop : Recipe Operand :=
  .bind (.request .temp) fun size =>
    .bind (.request (.call size .normal (.var .self) ⟨"size"⟩ [] .nullBlock ∅)) fun _ =>
      .ensure
        (.bind (.request (.zsuper .nullBlock)) fun value => .pure value)
        (.bind (.request .temp) fun closed =>
          .bind (.request (.call closed .normal (.var .self) ⟨"close"⟩ [] .nullBlock ∅)) fun _ =>
            .pure .nil)

theorem results_of_finish_superAtTop : ∃ x t k u,
    (single .scriptBody).Begins x ∧ x.nextTemp = 0 ∧
      LedgerM.Runs Recipe.superAtTop.build (single .scriptBody) {} (.var (x.temp 2)) t k ∧
      (∀ v ∈ k.asked, v ∈ k.written) ∧ (∀ i, x.temp i ∈ k.written → x.temp i ∈ k.returned) ∧
      t.Runs finish ⟨0⟩ u ∧ x.temp 3 ∈ k.returned ∧
      ∃ y xs, u.registry.scope? ⟨0⟩ = some y ∧ y.instrs = some xs ∧ 3 < y.nextTemp ∧
        ∀ i, x.temp i ∈ results xs ↔ i < y.nextTemp ∧ i ≠ 3 := by
  have hs : (single .scriptBody).Begins _ := ⟨rfl, (starts_single _).fresh, rfl, rfl, rfl⟩
  have hbuild := LedgerM.runs_of_ok (x := Recipe.superAtTop.build) (s := single .scriptBody)
    (k := {}) (a := .var (.temp (.plain 2))) (by decide +kernel)
  have hfinish := runs_of_ok (x := finish) (a := ⟨0⟩)
    (s := (Recipe.superAtTop.build (single .scriptBody) {}).1.2) (by decide +kernel)
  have hledger : let k := (Recipe.superAtTop.build (single .scriptBody) {}).2
      k.asked = k.written ∧ k.written = [.temp (.plain 0), .temp (.plain 1)] ∧
        k.returned = k.written ++ [.temp (.plain 3), .temp (.plain 2)] ∧
        k.refused = [.temp (.plain 3)] := by decide +kernel
  obtain ⟨hasked, hwritten, hreturned, hrefused⟩ := hledger
  have hhanded : ∀ v ∈ (Recipe.superAtTop.build (single .scriptBody) {}).2.written,
      v ∈ (Recipe.superAtTop.build (single .scriptBody) {}).2.returned :=
    fun _ hv => hreturned ▸ List.mem_append_left _ hv
  have hlast : .temp (.plain 3) ∈ (Recipe.superAtTop.build (single .scriptBody) {}).2.returned :=
    hreturned ▸ List.mem_append_right _ List.mem_cons_self
  obtain ⟨y, xs, hy, hinstrs, hresults, hcounted, -⟩ := results_of_finish hs rfl hbuild
    (fun v hv => hasked ▸ hv) (fun i hi => hhanded _ hi) hfinish
  refine ⟨_, _, _, _, hs, rfl, hbuild, fun v hv => hasked ▸ hv, fun i hi => hhanded _ hi, hfinish,
    hlast, y, xs, hy, hinstrs, hcounted 3 hlast, fun i => ?_⟩
  rw [hresults, hrefused, hwritten]
  refine and_congr_right' ⟨?_, fun hi hrefused => ?_⟩
  · rintro hi rfl
    exact absurd (hi List.mem_cons_self) (by decide)
  · exact absurd (Scope.temp_injective (List.mem_singleton.mp hrefused)) hi

end Finished

end ScopeIR
