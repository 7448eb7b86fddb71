import ScopeIR.Proofs.Veil

/-! Temporaries, lines and instructions under a veil. The traced run takes a variable for a module
when it writes the first line of a builder, and the veil knows its index. -/

namespace ScopeIR

namespace Session

theorem temp_apply (s : Session) : temp s =
    match s.registry.scope? s.tempScope with
    | some x =>
      match checkedAdd x.nextTemp 1 with
      | some next =>
        (.ok (x.temp x.nextTemp),
          { s with registry := s.registry.setScope s.tempScope { x with nextTemp := next } })
      | none => (.error .overflow, s)
    | none => (.error (.noScope s.tempScope), s) := by
  have hget : temp s = (do
      let index ← RegistryM.nextTemp s.tempScope
      let scope ← RegistryM.scope s.tempScope
      return scope.temp index : SessionM Variable) s := rfl
  rw [hget, bind_apply, liftM_apply, Registry.nextTemp_apply]
  cases hx : s.registry.scope? s.tempScope with
  | none => rfl
  | some x =>
    dsimp only
    cases checkedAdd x.nextTemp 1 with
    | none => rfl
    | some next =>
      dsimp only
      rw [bind_apply, liftM_apply, Registry.scope_apply, Registry.scope?_setScope_self hx]
      rfl

end Session

namespace Veil

variable {V : Veil} {c : ScopeId} {g g' : Registry} {s s' t t' u : Session} {i : Instr}

theorem toNat_count (id : ScopeId) (n : UInt64) :
    (V.count id n).toNat = free (V.taken id) n.toNat :=
  UInt64.toNat_ofNat_of_lt' (free_le.trans_lt n.toNat_lt_size)

/-- What is not taken counts in both runs. -/
theorem count_succ {id : ScopeId} {n next : UInt64} (hn : ¬ V.taken id n.toNat)
    (hnext : checkedAdd n 1 = some next) :
    checkedAdd (V.count id n) 1 = some (V.count id next) := by
  have hadd : n.toNat + 1 = next.toNat := (checkedAdd_eq_some_iff _ _ _).mp hnext
  refine (checkedAdd_eq_some_iff _ _ _).mpr ?_
  rw [toNat_count, toNat_count, ← hadd, free_succ hn]
  rfl

theorem Untraces.tempScope (h : V.Untraces c s s') : s'.tempScope = s.tempScope := by
  have howner : ∀ (outer : List Builder) (b : Builder) (f : Variable → Variable),
      ((b.untraced f).tempOwner
        (outer.map fun b => b.untraced (V.var (V.counter b.scope)))).scope =
        (b.tempOwner outer).scope := by
    intro outer
    induction outer with
    | nil => exact fun _ _ => rfl
    | cons p outer ih =>
      intro b f
      simp only [List.map_cons, Builder.tempOwner]
      by_cases hb : b.borrowsTemps
      · have hb' : (b.untraced f).borrowsTemps := hb
        rw [if_pos hb, if_pos hb']
        exact ih p _
      · have hb' : ¬ (b.untraced f).borrowsTemps := hb
        rw [if_neg hb, if_neg hb']
        rfl
  unfold Session.tempScope
  rw [h.builder, h.outer]
  exact howner _ _ _

/-- Taking a temporary is a service. -/
theorem service_nextTemp {id : ScopeId} {x : Scope} {next : UInt64} (hx : g.scope? id = some x)
    (hnext : checkedAdd x.nextTemp 1 = some next) :
    g.Service False (g.setScope id { x with nextTemp := next }) := by
  have hruns : g.Runs (RegistryM.nextTemp id) x.nextTemp
      (g.setScope id { x with nextTemp := next }) := by
    rw [Registry.Runs, Registry.nextTemp_apply, hx]
    dsimp only
    rw [hnext]
  exact .nextTemp hruns

theorem temps_setScope {id : ScopeId} {x : Scope} {next : UInt64} (hx : g.scope? id = some x)
    (hnext : checkedAdd x.nextTemp 1 = some next) :
    x.nextTemp.toNat < (g.setScope id { x with nextTemp := next }).temps id := by
  rw [Registry.temps, Registry.scope?_setScope_self hx]
  exact Nat.lt_of_succ_le ((checkedAdd_eq_some_iff _ _ _).mp hnext).le

/-- What a counter hands out next is not taken. -/
theorem Complies.not_taken {id : ScopeId} {x : Scope} {next : UInt64}
    (hcomplies : V.Complies (g.setScope id { x with nextTemp := next })) (hg : V.Grounded g)
    (hx : g.scope? id = some x) (hnext : checkedAdd x.nextTemp 1 = some next) :
    ¬ V.taken id x.nextTemp.toNat ∧
      checkedAdd (V.count id x.nextTemp) 1 = some (V.count id next) := by
  have hfree : ¬ V.taken id x.nextTemp.toNat := by
    rw [hcomplies.taken (temps_setScope hx hnext)]
    intro htraced
    have hlt := hg.bounded htraced
    rw [Registry.temps, hx] at hlt
    exact lt_irrefl _ hlt
  exact ⟨hfree, count_succ hfree hnext⟩

theorem hides_temp : V.Hides c s s' Session.temp Session.temp (V.var c) := by
  refine ⟨fun hs => ?_, fun hs hss' hcomplies => ?_⟩
  · rw [Session.temp_apply]
    cases hx : s.registry.scope? s.tempScope with
    | none => exact leads_refl hs
    | some x =>
      dsimp only
      cases hnext : checkedAdd x.nextTemp 1 with
      | none => exact leads_refl hs
      | some next => exact leads_service hs (service_nextTemp hx hnext)
  · rw [Session.temp_apply] at hcomplies ⊢
    rw [Session.temp_apply, hss'.tempScope, hss'.registry.scope]
    cases hx : s.registry.scope? s.tempScope with
    | none => exact .error hss'
    | some x =>
      rw [hx] at hcomplies
      dsimp only [Option.map_some] at hcomplies ⊢
      cases hnext : checkedAdd x.nextTemp 1 with
      | none => exact .spent ⟨_, x, hx, (checkedAdd_one_eq_none_iff _).mp hnext⟩
      | some next =>
        rw [hnext] at hcomplies
        have hid := hs.grounded.arranged.eq_id hx
        obtain ⟨hfree, hcount⟩ := hcomplies.not_taken hs.grounded hx hnext
        have hcount : checkedAdd (V.scope x).nextTemp 1 = some (V.count x.id next) := by
          simp only [Veil.scope, hid, hcount]
        rw [hcount]
        dsimp only
        have hvar : (V.scope x).temp (V.scope x).nextTemp = V.var c (x.temp x.nextTemp) := by
          have hindex : (V.scope x).nextTemp =
              UInt64.ofNat (rank (V.taken s.tempScope) x.nextTemp.toNat) := by
            rw [rank_of_not hfree, ← hid]
            rfl
          rw [hindex]
          have howner := hss'.owner hx
          have hhome := fun k => hcomplies.home (k := k) (Registry.scope?_setScope_self hx)
          simp only [Scope.temp, Veil.scope]
          split
          · next k _ hk =>
            rw [← hhome k hk]
            rfl
          · next hother =>
            obtain ⟨hkind, hsome⟩ | rfl := howner
            · obtain ⟨k, hk⟩ := Option.isSome_iff_exists.mp hsome
              exact absurd hk (hother k hkind)
            · rfl
        rw [hvar]
        have hleads := leads_service (r := .ok ()) hs (service_nextTemp hx hnext)
        exact .ok (hss'.extends hleads.later (hss'.registry.setScope hx) hss'.builder rfl)

/-- The count does not see what is taken. -/
theorem Covers.take {id : ScopeId} {x : Scope} {next : UInt64} (h : V.Covers g g')
    (hx : g.scope? id = some x) (hid : x.id = id) (hnext : checkedAdd x.nextTemp 1 = some next)
    (htaken : V.taken id x.nextTemp.toNat) :
    V.Covers (g.setScope id { x with nextTemp := next }) g' := by
  have hcount : V.count x.id next = V.count x.id x.nextTemp := by
    have hadd : x.nextTemp.toNat + 1 = next.toNat := (checkedAdd_eq_some_iff _ _ _).mp hnext
    unfold count
    rw [hid, ← hadd, free_succ_of_taken htaken]
  have hsame : V.scope { x with nextTemp := next } = V.scope x := by
    simp only [Veil.scope, hcount]
  refine ⟨h.config, h.nextClosureId, h.size.trans Array.size_setIfInBounds.symm, fun id' => ?_⟩
  rw [h.scope]
  by_cases hid' : id' = id
  · subst hid'
    rw [hx, Registry.scope?_setScope_self hx, Option.map_some, Option.map_some, hsame]
  · rw [Registry.scope?_setScope_ne hid']

end Veil

namespace Session

variable {s : Session} {line : Int32}

/-- The session after the line number was written with its trace instruction. -/
def traced (s : Session) (line : Int32) (point : TracePoint) : Session :=
  let b := (s.lined line).builder
  (s.lined line).announce b.instrs.size (.tracePoint point)
    { b.append (.tracePoint point) with currentModule := some point.module }

theorem currentModuleVar_apply (s : Session) : currentModuleVar s =
    match s.builder.currentModule with
    | some v => (.ok v, s)
    | none =>
      match RegistryM.nextTemp s.builder.scope s.registry with
      | .ok (i, g) =>
        let v : Variable := .temp (.currentModule i)
        (.ok v, { s with registry := g, builder := { s.builder with currentModule := some v } })
      | .error e => (.error e, s) := by
  unfold currentModuleVar
  rw [bind_apply]
  have hcurrent : current s = (.ok s.builder, s) := rfl
  rw [hcurrent]
  dsimp only
  cases s.builder.currentModule with
  | some v => rfl
  | none =>
    dsimp only
    rw [bind_apply, liftM_apply]
    cases RegistryM.nextTemp s.builder.scope s.registry <;> rfl

theorem runs_tracePoint {v : Variable} (hg : s.registry.Arranged)
    (hid : s.registry.Has s.builder.scope) (hline : line ≠ Int32.maxValue) :
    ∃ point : TracePoint, point.event = .line ∧ point.module = v ∧
      nextLine line = some point.line ∧
      s.Runs (tracePoint s.builder.scope line v) ()
        (s.announce s.builder.instrs.size (.tracePoint point)
          (s.builder.append (.tracePoint point))) := by
  obtain ⟨chain, -, hchain⟩ := hg.walk hid
  obtain ⟨x, hx⟩ := Registry.has_iff.mp hid
  have hmethod : s.registry.nearestMethod s.builder.scope =
      .ok (chain.find? (·.kind = .method)) := by
    rw [Registry.nearestMethod, hchain]
    rfl
  have hnext : nextLine line = some (line + 1) := if_neg hline
  refine ⟨⟨.line, v, (chain.find? (·.kind = .method)).map (·.name), x.file, line + 1⟩, rfl, rfl,
    hnext, ?_⟩
  refine runs_bind.mpr ⟨s, s, runs_get.mpr ⟨rfl, rfl⟩, ?_⟩
  refine runs_bind.mpr ⟨_, s, runs_liftM_except.mpr ⟨hmethod, rfl⟩, ?_⟩
  refine runs_bind.mpr ⟨x, s, runs_ownScope.mpr ⟨hx, rfl⟩, ?_⟩
  exact runs_bind.mpr ⟨line + 1, s, runs_liftM_except.mpr ⟨by rw [hnext]; rfl, rfl⟩, rfl⟩

/-- Ways to trace a line: the variable for the module is there, or it is taken now, or cannot be. -/
inductive Flushes (s : Session) (line : Int32) : Except Fault Unit × Session → Prop
  | has {point : TracePoint} : point.event = .line → nextLine line = some point.line →
    s.builder.currentModule = some point.module → Flushes s line (.ok (), s.traced line point)
  | takes {x : Scope} {next : UInt64} {point : TracePoint} : point.event = .line →
    nextLine line = some point.line → s.registry.scope? s.builder.scope = some x →
    checkedAdd x.nextTemp 1 = some next → point.module = .temp (.currentModule x.nextTemp) →
      Flushes s line (.ok (), { s with
        registry := s.registry.setScope s.builder.scope { x with nextTemp := next } }.traced
          line point)
  | spent {x : Scope} : s.registry.scope? s.builder.scope = some x →
    checkedAdd x.nextTemp 1 = none → Flushes s line (.error .overflow, s.lined line)

theorem flushes (htraces : s.registry.config.fullTrace) (hg : s.registry.Arranged)
    (hid : s.registry.Has s.builder.scope) (hp : s.builder.line.pending = some line)
    (hline : line ≠ Int32.maxValue) : s.Flushes line (flushLine s) := by
  obtain ⟨x, hx⟩ := Registry.has_iff.mp hid
  have hwritten : s.registry.Advance False (s.lined line).registry :=
    .changes (.record (e := .instrAdded _ _ _))
  have hlined : (s.lined line).registry.Arranged := hg.advance hwritten
  rw [flushLine_of_some hp, if_pos htraces, bind_apply, currentModuleVar_apply]
  cases hmodule : (s.lined line).builder.currentModule with
  | some v =>
    obtain ⟨point, hevent, rfl, hnext, hpoint⟩ :=
      runs_tracePoint (s := s.lined line) (v := v) hlined hid hline
    dsimp only
    have hsame : (s.lined line).announce (s.lined line).builder.instrs.size (.tracePoint point)
        ((s.lined line).builder.append (.tracePoint point)) = s.traced line point := by
      unfold traced
      rw [← hmodule]
      rfl
    rw [hsame] at hpoint
    exact hpoint ▸ .has hevent hnext hmodule
  | none =>
    have hx' : (s.lined line).registry.scope? (s.lined line).builder.scope = some x := hx
    rw [Registry.nextTemp_apply, hx']
    dsimp only
    cases hadd : checkedAdd x.nextTemp 1 with
    | none => exact .spent hx hadd
    | some next =>
      dsimp only
      have hservice := Veil.service_nextTemp hx' hadd
      generalize hu : ({ s.lined line with
        registry := (s.lined line).registry.setScope (s.lined line).builder.scope
          { x with nextTemp := next }
        builder := { (s.lined line).builder with
          currentModule := some (.temp (.currentModule x.nextTemp)) } } : Session) = u
      have hscope : u.builder.scope = s.builder.scope := by
        rw [← hu]
        rfl
      have hregistry : u.registry = (s.lined line).registry.setScope (s.lined line).builder.scope
          { x with nextTemp := next } := by rw [← hu]
      rw [← hregistry] at hservice
      obtain ⟨point, hevent, hmodule, hnext, hpoint⟩ :=
        runs_tracePoint (s := u) (v := .temp (.currentModule x.nextTemp))
          (hlined.advance (.changes (.serves hservice))) (hservice.serves.has (hscope ▸ hid)) hline
      rw [hscope] at hpoint
      rw [hpoint]
      have hsame : u.announce u.builder.instrs.size (.tracePoint point)
          (u.builder.append (.tracePoint point)) = { s with
            registry := s.registry.setScope s.builder.scope { x with nextTemp := next } }.traced
              line point := by
        unfold traced
        rw [hmodule, ← hu]
        rfl
      rw [hsame]
      exact .takes hevent hnext hx hadd hmodule

end Session

namespace Veil

open Session

variable {V : Veil} {c : ScopeId} {g g' : Registry} {s s' t t' u : Session} {i : Instr}
  {line : Int32} {point : TracePoint}

section Lines

theorem heard_traced : ∃ m n, (s.traced line point).registry.heard = s.registry.heard ++
    [⟨s.builder.scope, .lineNumber line s.builder.coverage, m⟩,
      ⟨s.builder.scope, .tracePoint point, n⟩] := by
  refine ⟨s.builder.instrs.size, (s.lined line).builder.instrs.size, ?_⟩
  have hline := Registry.heard_of_record (g := s.registry) (u := ())
    (e := .instrAdded s.builder.scope s.builder.instrs.size (.lineNumber line s.builder.coverage))
    (Registry.runs_record.mpr rfl)
  have hpoint := Registry.heard_of_record (g := (s.lined line).registry) (u := ())
    (e := .instrAdded s.builder.scope (s.lined line).builder.instrs.size (.tracePoint point))
    (Registry.runs_record.mpr rfl)
  exact hpoint.trans ((congrArg (· ++ _) hline).trans (List.append_assoc _ _ _))

theorem traced_traced {id : ScopeId} {m : ℕ} : (s.traced line point).registry.Traced id m ↔
    s.registry.Traced id m ∨
      id = s.builder.scope ∧ ∃ i, point.module = .temp (.currentModule i) ∧ i.toNat = m := by
  obtain ⟨m', n, hheard⟩ : ∃ m n, (s.traced line point).registry.heard = _ := heard_traced
  unfold Registry.Traced
  rw [hheard]
  constructor
  · rintro ⟨index, point', i, hmem, hmodule⟩
    rcases List.mem_append.mp hmem with hmem | hnew
    · exact .inl ⟨index, point', i, hmem, hmodule⟩
    rcases List.mem_cons.mp hnew with heq | hnew
    · cases heq
    obtain ⟨⟩ := List.mem_singleton.mp hnew
    exact .inr ⟨rfl, i, hmodule⟩
  · rintro (⟨index, point', i, hmem, hmodule⟩ | ⟨rfl, i, hmodule⟩)
    · exact ⟨index, point', i, List.mem_append_left _ hmem, hmodule⟩
    · refine ⟨n, point, i, List.mem_append_right _ ?_, hmodule⟩
      exact List.mem_cons_of_mem _ List.mem_cons_self

theorem toList_traced : (s.traced line point).builder.instrs.toList =
    s.builder.instrs.toList ++ [.lineNumber line s.builder.coverage, .tracePoint point] := by
  simp only [traced, lined, announce, Builder.append, Array.toList_push, List.append_assoc,
    List.cons_append, List.nil_append]

/-- Its line number and the trace are all that the traced run's list gains. -/
theorem leads_traced {r : Except Fault Unit} {i : UInt64} (hs : V.Neat s)
    (hg : g = s.registry ∨ s.registry.Service False g) (hjournal : g.journal = s.registry.journal)
    (hevent : point.event = .line) (hline : nextLine line = some point.line)
    (hmodule : point.module = .temp (.currentModule i))
    (hi : s.registry.Traced s.builder.scope i.toNat ∨ s.registry.temps s.builder.scope ≤ i.toNat)
    (hlt : i.toNat < g.temps s.builder.scope) :
    V.Leads s (r, { s with registry := g }.traced line point) := by
  have hneat : V.Neat { s with registry := g } ∧ Extends s { s with registry := g } := by
    rcases hg with rfl | hg
    · exact ⟨hs, .refl s⟩
    · obtain ⟨hlater, hneat⟩ := leads_service (r := .ok ()) hs hg
      exact ⟨hneat nofun, hlater⟩
  obtain ⟨⟨hgrounded, hscope, -, -, -, -⟩, hlater⟩ := hneat
  have hold : ∀ {id m}, g.Traced id m ↔ s.registry.Traced id m :=
    Registry.traced_of_heard (congrArg Journal.notices hjournal)
  have htwice : g.Advances False ({ s with registry := g }.traced line point).registry :=
    .tail (.single (.changes (.record (e := .instrAdded _ _ _))))
      (.changes (.record (e := .instrAdded _ _ _)))
  refine ⟨⟨⟨hlater.registry.config, hlater.registry.advances.trans htwice, ?_, ?_⟩, hlater.size,
    rfl, rfl, rfl⟩, fun _ => ⟨⟨hgrounded.traces, ⟨hgrounded.arranged.number,
      hgrounded.arranged.parent, hgrounded.arranged.closureIds⟩, ?_, hgrounded.stored⟩, hscope,
      nofun, fun hv => ?_, ?_, hs.holds⟩⟩
  · exact fun h => traced_traced.mpr (.inl (hold.mpr h))
  · intro id m h
    rcases traced_traced.mp h with h | ⟨rfl, j, hj, rfl⟩
    · exact .inl (hold.mp h)
    · obtain rfl := TempVar.currentModule.inj (Variable.temp.inj (hmodule.symm.trans hj))
      exact hi
  · intro id m h
    rcases traced_traced.mp h with h | ⟨rfl, j, hj, rfl⟩
    · exact hgrounded.bounded h
    · obtain rfl := TempVar.currentModule.inj (Variable.temp.inj (hmodule.symm.trans hj))
      exact hlt
  · obtain rfl := Option.some.inj hv
    exact ⟨i, hmodule, traced_traced.mpr (.inr ⟨rfl, i, hmodule, rfl⟩)⟩
  · rw [toList_traced]
    exact hs.list.append (.line hevent hline .nil)

/-- The variable for the module was there. -/
theorem leads_traced_has (hs : V.Neat s) (hevent : point.event = .line)
    (hline : nextLine line = some point.line)
    (hv : s.builder.currentModule = some point.module) :
    V.Leads s (.ok (), s.traced line point) := by
  obtain ⟨i, hmodule, hi⟩ := hs.module hv
  exact leads_traced hs (.inl rfl) rfl hevent hline hmodule (.inl hi) (hs.grounded.bounded hi)

/-- The variable for the module is taken now. -/
theorem leads_traced_takes {x : Scope} {next : UInt64} (hs : V.Neat s) (hevent : point.event = .line)
    (hline : nextLine line = some point.line) (hx : s.registry.scope? s.builder.scope = some x)
    (hnext : checkedAdd x.nextTemp 1 = some next)
    (hmodule : point.module = .temp (.currentModule x.nextTemp)) :
    V.Leads s (.ok (), { s with
      registry := s.registry.setScope s.builder.scope { x with nextTemp := next } }.traced
        line point) := by
  refine leads_traced hs (.inr (service_nextTemp hx hnext)) rfl hevent hline hmodule (.inr ?_)
    (temps_setScope hx hnext)
  rw [Registry.temps, hx]
  exact le_rfl

/-- There is no number left for the variable. -/
theorem leads_lined : V.Leads s ((.error .overflow : Except Fault Unit), s.lined line) := by
  have htraced : ∀ {id m}, (s.lined line).registry.Traced id m ↔ s.registry.Traced id m :=
    Registry.traced_push fun _ _ _ he => Instr.noConfusion (Event.instrAdded.inj he).2.2
  refine ⟨⟨⟨rfl, .single (.changes (.record (e := .instrAdded _ _ _))), htraced.mpr, ?_⟩, rfl,
    rfl, rfl, rfl⟩, fun h => absurd rfl h⟩
  exact fun h => .inl (htraced.mp h)

theorem untraced_traced {f : Variable → Variable} :
    (s.traced line point).builder.untraced f =
      let b := (s.builder.untraced f)
      { b with line := { b.line with pending := none } }.append
        (.lineNumber line s.builder.coverage) := by
  simp only [traced, lined, announce, Builder.append, Builder.untraced, Array.toList_push,
    untraced_append, untraced_kept (i := .lineNumber line s.builder.coverage) rfl,
    untraced_trace (i := .tracePoint point) rfl, List.append_nil, Instr.mapVars, Instr.scopeFlags,
    FlagSet.union_empty, List.push_toArray]

theorem mirrors_traced (hss' : V.Untraces c s s')
    (hlater : Extends s ({ s with registry := g }.traced line point))
    (hcovers : V.Covers g s'.registry) :
    V.Untraces c ({ s with registry := g }.traced line point) (s'.lined line) := by
  refine hss'.extends hlater ⟨hcovers.config, hcovers.nextClosureId, hcovers.size, hcovers.scope⟩
    ?_ rfl
  rw [untraced_traced, lined, hss'.builder]
  rfl

theorem hides_flushLine : V.Hides c s s' flushLine flushLine fun v => v := by
  cases hp : s.builder.line.pending with
  | none =>
    have hflush := flushLine_of_none hp
    refine ⟨fun hs => hflush ▸ leads_refl hs, fun hs hss' _ => ?_⟩
    have hp' : s'.builder.line.pending = none := by
      rw [hss'.builder]
      exact hp
    rw [hflush, flushLine_of_none hp']
    exact .ok hss'
  | some line =>
    have hflushes (hs : V.Neat s) : s.Flushes line (flushLine s) :=
      flushes hs.grounded.traces hs.grounded.arranged hs.scope hp (hs.pending hp)
    refine ⟨fun hs => ?_, fun hs hss' hcomplies => ?_⟩
    · have hflushes := hflushes hs
      generalize flushLine s = outcome at hflushes
      cases hflushes with
      | has hevent hline hv => exact leads_traced_has hs hevent hline hv
      | takes hevent hline hx hnext hmodule =>
        exact leads_traced_takes hs hevent hline hx hnext hmodule
      | spent => exact leads_lined
    · have hflush' : flushLine s' = (.ok (), s'.lined line) := by
        have hp' : s'.builder.line.pending = some line := by
          rw [hss'.builder]
          exact hp
        rw [flushLine_of_some hp', hss'.registry.config]
        rfl
      have hflushes := hflushes hs
      rw [hflush']
      generalize flushLine s = outcome at hflushes hcomplies ⊢
      cases hflushes with
      | has hevent hline hv =>
        exact .ok (mirrors_traced hss' (leads_traced_has hs hevent hline hv).later hss'.registry)
      | takes hevent hline hx hnext hmodule =>
        have htaken := (hcomplies.taken (temps_setScope hx hnext)).mpr
          (traced_traced.mpr (.inr ⟨rfl, _, hmodule, rfl⟩))
        have hid := hs.grounded.arranged.eq_id hx
        exact .ok (mirrors_traced hss'
          (leads_traced_takes hs hevent hline hx hnext hmodule).later
          (hss'.registry.take hx hid hnext htaken))
      | spent hx hnext => exact .spent ⟨_, _, hx, (checkedAdd_one_eq_none_iff _).mp hnext⟩

end Lines

section Emission

theorem Neat.body {frame : EnsureFrame} {frames : List EnsureFrame} (hs : V.Neat s)
    (h : s.builder.ensureBodies = frame :: frames) : ∀ j ∈ frame.instrs, j.Fine V.given :=
  hs.holds frame (List.mem_append_right _ (h ▸ List.mem_cons_self))

/-- Instructions that go to the body at work wait there in both runs. -/
theorem hides_toBody {frame : EnsureFrame} {frames : List EnsureFrame} {xs : List Instr}
    (hframes : s.builder.ensureBodies = frame :: frames) (hxs : ∀ j ∈ xs, j.Fine V.given) :
    V.Hides c s s' (updateBuilder fun b => { b with ensureBodies := frame.filled xs :: frames })
      (updateBuilder fun b =>
        let rest := frames.map (·.mapVars (V.var c))
        { b with ensureBodies := (frame.filled xs).mapVars (V.var c) :: rest }) fun v => v := by
  refine hides_updateBuilder rfl rfl rfl .inl rfl (fun hs f hf => ?_) rfl
  rcases List.mem_append.mp hf with hf | hf
  · exact hs f (List.mem_append_left _ hf)
  rcases List.mem_cons.mp hf with rfl | hf
  · exact hxs
  · exact hs f (List.mem_append_right _ (hframes ▸ List.mem_cons_of_mem _ hf))

theorem hides_emit (hi : i.Fine V.given) :
    V.Hides c s s' (emit i) (emit (i.mapVars (V.var c))) fun v => v := by
  unfold emit
  refine hides_of_neat fun hs => hides_current_bind ?_
  simp only [Builder.untraced]
  cases hframes : s.builder.ensureBodies with
  | nil => exact hides_bind hides_flushLine fun _ => hides_append hi
  | cons frame frames =>
    have hxs : ∀ j ∈ frame.instrs ++ [i], j.Fine V.given := fun j hj => by
      rcases List.mem_append.mp hj with hj | hj
      · exact hs.body hframes j hj
      · obtain rfl := List.mem_singleton.mp hj
        exact hi
    have hmap : (frame.instrs ++ [i]).map (·.mapVars (V.var c)) =
        frame.instrs.map (·.mapVars (V.var c)) ++ [i.mapVars (V.var c)] := List.map_append
    have hbody : V.Hides c s s' _ _ _ := hides_toBody hframes hxs
    simp only [EnsureFrame.mapVars, EnsureFrame.filled, hmap] at hbody
    exact hbody

theorem hides_emitAtBeginning (hi : i.Fine V.given) :
    V.Hides c s s' (emitAtBeginning i) (emitAtBeginning (i.mapVars (V.var c))) fun v => v := by
  unfold emitAtBeginning
  refine hides_of_neat fun hs => hides_current_bind ?_
  simp only [Builder.untraced]
  cases hframes : s.builder.ensureBodies with
  | nil => exact hides_prepend hi
  | cons frame frames =>
    have hxs : ∀ j ∈ i :: frame.instrs, j.Fine V.given := fun j hj => by
      rcases List.mem_cons.mp hj with rfl | hj
      · exact hi
      · exact hs.body hframes j hj
    exact hides_toBody hframes hxs

theorem hides_emitResult (hi : i.Fine V.given) :
    V.Hides c s s' (emitResult i) (emitResult (i.mapVars (V.var c))) (V.var c) := by
  unfold emitResult
  rw [Instr.result?_mapVars]
  cases i.result? with
  | none => exact hides_throw rfl
  | some v => exact hides_bind (hides_emit hi) fun _ => hides_pure rfl

theorem hides_insertFlags {flags : ScopeFlags} :
    V.Hides c s s' (insertFlags flags) (insertFlags flags) fun v => v :=
  hides_updateBuilder rfl rfl rfl .inl rfl id rfl

theorem finds_orOverflow {α : Type} {x : Option α} :
    V.Finds c (fun a => a) (orOverflow x) (orOverflow x) := by
  cases x with
  | none => exact .inr ⟨_, rfl, rfl⟩
  | some a => exact .inl ⟨a, rfl, rfl⟩

theorem hides_place : V.Hides c s s' place place fun l => l := by
  unfold place
  refine hides_bind hides_ownScope fun _ => hides_current_bind ?_
  exact hides_finds_bind (fun _ => finds_orOverflow) fun _ => hides_pure rfl

end Emission

end Veil

end ScopeIR
