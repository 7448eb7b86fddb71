import ScopeIR.Proofs.Growth

/-! What the primitive operations do to a session. Some are equations, and others have a few ways to
go; properties of sessions are read off these without the operations being opened again. -/

namespace ScopeIR

/-- The temporary with this index, as the scope names it. -/
def Scope.temp (x : Scope) (i : UInt64) : Variable :=
  .temp <| match x.kind, x.closureId with
    | .closure, some c => .ofClosure c i
    | _, _ => .plain i

namespace Registry

/-- The registry with one more event in its journal. -/
def recorded (g : Registry) (e : Event) : Registry := { g with journal := g.journal.push e }

theorem growsTo_recorded (g : Registry) (e : Event) : g.GrowsTo (g.recorded e) :=
  growsTo_of_record (u := ()) (runs_record.mpr rfl)

end Registry

namespace Session

variable {s t : Session} {v : Unit} {i : Instr} {line : Int32}

/-- The scope that temporaries are taken from. -/
def tempScope (s : Session) : ScopeId := (s.builder.tempOwner s.outer).scope

/-- The session after the instruction joined the scope's own list at the index. -/
def announce (s : Session) (index : Nat) (i : Instr) (b : Builder) : Session :=
  { s with
    registry := { s.registry with
      journal := s.registry.journal.push (.instrAdded s.builder.scope index i) }
    builder := b }

/-- The session after the line number was written. -/
def lined (s : Session) (line : Int32) : Session :=
  let b := { s.builder with line := { s.builder.line with pending := none } }
  { s with builder := b }.announce b.instrs.size (.lineNumber line b.coverage)
    (b.append (.lineNumber line b.coverage))

/-- From now on the scope yields to its block. -/
def yielding (s : Session) : Session :=
  { s with builder := { s.builder with needsYieldBlock := true } }

@[simp] theorem runs_ownScope {x : Scope} :
    s.Runs ownScope x t ↔ s.registry.scope? s.builder.scope = some x ∧ s = t := by
  simp only [ownScope, runs_bind, runs_current, runs_liftM, Registry.runs_scope]
  constructor
  · rintro ⟨_, _, ⟨rfl, rfl⟩, _, ⟨hx, rfl⟩, rfl⟩
    exact ⟨hx, rfl⟩
  · rintro ⟨hx, rfl⟩
    exact ⟨_, _, ⟨rfl, rfl⟩, _, ⟨hx, rfl⟩, rfl⟩

section Opening

variable {g g' : Registry} {id : ScopeId} {b : Builder}

/-- A builder that was just opened. -/
theorem eq_of_openBuilder {borrowsTemps : Bool} {coverage : Coverage}
    (h : g.Runs (openBuilder id borrowsTemps coverage) b g') :
    ∃ x, g.scope? id = some x ∧
      b = { scope := id, borrowsTemps, flags := x.kind.initialFlags, coverage } ∧
      g' = g.recorded (.builderOpened id) := by
  simp only [openBuilder, Registry.runs_bind, Registry.runs_scope, Registry.runs_record,
    Registry.runs_pure] at h
  obtain ⟨x, _, ⟨hx, rfl⟩, _, _, rfl, rfl, rfl⟩ := h
  exact ⟨x, hx, rfl, rfl⟩

theorem runs_openRoot :
    g.Runs (openRoot id) b g' ↔ g.Runs (openBuilder id false g.config.coverage) b g' := by
  simp only [openRoot, Registry.runs_bind, Registry.runs_get]
  constructor
  · rintro ⟨_, _, ⟨rfl, rfl⟩, h⟩
    exact h
  · exact fun h => ⟨_, _, ⟨rfl, rfl⟩, h⟩

end Opening

section Numbers

theorem runs_newLabelNamed {stem : String} {l : Label} : s.Runs (newLabelNamed stem) l t ↔
    ∃ g, s.registry.Runs (RegistryM.newLabel s.builder.scope stem) l g ∧
      t = { s with registry := g } := by
  simp only [newLabelNamed, runs_bind, runs_current, runs_liftM]
  constructor
  · rintro ⟨_, _, ⟨rfl, rfl⟩, h⟩
    exact h
  · exact fun h => ⟨_, _, ⟨rfl, rfl⟩, h⟩

/-- Only the counter of the scope that is taken from moves on. -/
theorem runs_temp {var : Variable} (h : s.Runs temp var t) :
    ∃ n g x, s.registry.Runs (RegistryM.nextTemp s.tempScope) n g ∧
      g.scope? s.tempScope = some x ∧ var = x.temp n ∧ t = { s with registry := g } := by
  simp only [temp, runs_bind, runs_get, runs_liftM, runs_pure, Registry.runs_scope] at h
  obtain ⟨_, _, ⟨rfl, rfl⟩, n, _, ⟨g, hn, rfl⟩, x, _, ⟨_, ⟨hx, rfl⟩, rfl⟩, rfl, rfl⟩ := h
  exact ⟨n, g, x, hn, hx, rfl, rfl⟩

/-- The variable for the module was taken before, or it is taken now. -/
theorem runs_currentModuleVar {var : Variable} (h : s.Runs currentModuleVar var t) :
    s.builder.currentModule = some var ∧ t = s ∨
      s.builder.currentModule = none ∧ ∃ n g,
        s.registry.Runs (RegistryM.nextTemp s.builder.scope) n g ∧
        var = .temp (.currentModule n) ∧
        t = { s with registry := g, builder := { s.builder with currentModule := some var } } := by
  simp only [currentModuleVar, runs_bind, runs_current] at h
  obtain ⟨_, _, ⟨rfl, rfl⟩, h⟩ := h
  split at h
  · next hsome =>
    obtain ⟨rfl, rfl⟩ := runs_pure.mp h
    exact .inl ⟨hsome, rfl⟩
  · next hnone =>
    simp only [runs_bind, runs_liftM, runs_updateBuilder, runs_pure] at h
    obtain ⟨n, _, ⟨g, hn, rfl⟩, _, _, rfl, rfl, rfl⟩ := h
    exact .inr ⟨hnone, n, g, hn, rfl, rfl⟩

/-- The variable of the block was taken before, or it is taken now. -/
theorem runs_yieldClosureVar {var : Variable} (h : s.Runs yieldClosureVar var t) :
    s.builder.yieldClosure = some var ∧ t = s.yielding ∨
      s.builder.yieldClosure = none ∧ ∃ u, s.yielding.Runs temp var u ∧
        t = { u with builder := { u.builder with yieldClosure := some var } } := by
  simp only [yieldClosureVar, runs_bind, runs_updateBuilder, runs_current] at h
  obtain ⟨_, _, rfl, _, _, ⟨rfl, rfl⟩, h⟩ := h
  split at h
  · next hsome =>
    obtain ⟨rfl, rfl⟩ := runs_pure.mp h
    exact .inl ⟨hsome, rfl⟩
  · next hnone =>
    simp only [runs_bind, runs_updateBuilder, runs_pure] at h
    obtain ⟨_, u, htemp, _, _, rfl, rfl, rfl⟩ := h
    exact .inr ⟨hnone, u, htemp, rfl⟩

end Numbers

theorem runs_addClosure {closure : ScopeId} : s.Runs (addClosure closure) v t ↔
    ∃ g, s.registry.Runs (RegistryM.addClosure s.builder.scope closure) () g ∧
      t = { s with registry := g } := by
  simp only [addClosure, runs_bind, runs_current, runs_liftM]
  constructor
  · rintro ⟨_, _, ⟨rfl, rfl⟩, h⟩
    exact h
  · exact fun h => ⟨_, _, ⟨rfl, rfl⟩, h⟩

section Starting

variable {l : Label}

theorem runs_newClosureStart : s.Runs newClosureStart l t ↔ l = s.builder.scope.startLabel ∧
    t = { s with
      builder := { s.builder with closureStart := some s.builder.scope.startLabel } } := by
  simp only [newClosureStart, runs_bind, runs_current, runs_updateBuilder, runs_pure]
  constructor
  · rintro ⟨_, _, ⟨rfl, rfl⟩, _, _, rfl, rfl, rfl⟩
    exact ⟨rfl, rfl⟩
  · rintro ⟨rfl, rfl⟩
    exact ⟨_, _, ⟨rfl, rfl⟩, (), _, rfl, rfl, rfl⟩

end Starting

section Writing

theorem runs_append : s.Runs (append i) v t ↔
    t = s.announce s.builder.instrs.size i (s.builder.append i) := by
  simp only [append, runs_bind, runs_current, runs_liftM, runs_updateBuilder, Registry.runs_record]
  constructor
  · rintro ⟨_, _, ⟨rfl, rfl⟩, _, _, ⟨_, rfl, rfl⟩, rfl⟩
    rfl
  · rintro rfl
    exact ⟨_, _, ⟨rfl, rfl⟩, (), _, ⟨_, rfl, rfl⟩, rfl⟩

theorem runs_prepend : s.Runs (prepend i) v t ↔ t = s.announce 0 i (s.builder.prepend i) := by
  simp only [prepend, runs_bind, runs_current, runs_liftM, runs_updateBuilder,
    Registry.runs_record]
  constructor
  · rintro ⟨_, _, ⟨rfl, rfl⟩, _, _, ⟨_, rfl, rfl⟩, rfl⟩
    rfl
  · rintro rfl
    exact ⟨_, _, ⟨rfl, rfl⟩, (), _, ⟨_, rfl, rfl⟩, rfl⟩

theorem growsTo_announce {b : Builder} (s : Session) (index : Nat) (i : Instr) :
    s.registry.GrowsTo (s.announce index i b).registry := Registry.growsTo_recorded ..

/-- The start label was there before, or it is put in front of the list. -/
theorem runs_closureStart {l : Label} (h : s.Runs closureStart l t) :
    s.builder.closureStart = some l ∧ t = s ∨
      s.builder.closureStart = none ∧ l = s.builder.scope.startLabel ∧ ∃ u,
        s.Runs newClosureStart l u ∧ t = u.announce 0 (.label l) (u.builder.prepend (.label l)) := by
  simp only [closureStart, runs_bind, runs_current] at h
  obtain ⟨_, _, ⟨rfl, rfl⟩, h⟩ := h
  split at h
  · next hsome =>
    obtain ⟨rfl, rfl⟩ := runs_pure.mp h
    exact .inl ⟨hsome, rfl⟩
  · next hnone =>
    simp only [runs_bind, runs_pure, runs_prepend] at h
    obtain ⟨_, u, hstart, _, _, rfl, rfl, rfl⟩ := h
    exact .inr ⟨hnone, (runs_newClosureStart.mp hstart).1, u, hstart, rfl⟩

/-- Traces a line after it was written. -/
def tracePoint (scope : ScopeId) (line : Int32) (module : Variable) : SessionM Unit := do
  let method ← (← get).registry.nearestMethod scope
  let file := (← ownScope).file
  let line ← orOverflow (nextLine line)
  append (.tracePoint ⟨.line, module, method.map (·.name), file, line⟩)

theorem flushLine_of_none (h : s.builder.line.pending = none) : flushLine s = (.ok (), s) := by
  unfold flushLine
  rw [bind_apply]
  have hcurrent : current s = (.ok s.builder, s) := rfl
  rw [hcurrent]
  dsimp only
  rw [h]
  rfl

theorem flushLine_of_some (h : s.builder.line.pending = some line) : flushLine s =
    (if s.registry.config.fullTrace then currentModuleVar >>= tracePoint s.builder.scope line
      else pure ()) (s.lined line) := by
  unfold flushLine
  rw [bind_apply]
  have hcurrent : current s = (.ok s.builder, s) := rfl
  rw [hcurrent]
  dsimp only
  rw [h]
  rfl

/-- Ways to flush: no line is pending, or one is written, alone or with its trace instruction. -/
inductive Flushing (s : Session) : Session → Prop
  | idle : s.builder.line.pending = none → Flushing s s
  | plain {line : Int32} : s.builder.line.pending = some line →
    s.registry.config.fullTrace = false → Flushing s (s.lined line)
  | traced {line : Int32} {u : Session} {point : TracePoint} : s.builder.line.pending = some line →
    s.registry.config.fullTrace → (s.lined line).Runs currentModuleVar point.module u →
    point.event = .line → nextLine line = some point.line →
      Flushing s (u.announce u.builder.instrs.size (.tracePoint point)
        (u.builder.append (.tracePoint point)))

theorem flushing_of_flushLine (h : s.Runs flushLine v t) : s.Flushing t := by
  cases hline : s.builder.line.pending with
  | none =>
    rw [Runs, flushLine_of_none hline] at h
    cases h
    exact .idle hline
  | some line =>
    rw [Runs, flushLine_of_some hline] at h
    split at h
    · next htraces =>
      obtain ⟨module, u, hmodule, h⟩ := runs_bind.mp h
      simp only [tracePoint, runs_bind, runs_get, runs_ownScope, runs_liftM_except, runs_append,
        Registry.orOverflow_eq_ok] at h
      obtain ⟨_, _, ⟨rfl, rfl⟩, method, _, ⟨-, rfl⟩, x, _, ⟨-, rfl⟩, next, _, ⟨hnext, rfl⟩, rfl⟩ := h
      exact .traced hline htraces hmodule rfl hnext
    · next htraces =>
      cases h
      exact .plain hline (Bool.eq_false_iff.mpr htraces)

/-- While an ensure body is built, it takes what is emitted. -/
theorem runs_emit_body {frame : EnsureFrame} {frames : List EnsureFrame}
    (hs : s.builder.ensureBodies = frame :: frames) : s.Runs (emit i) v t ↔
      t = { s with builder := { s.builder with
        ensureBodies := { frame with instrs := frame.instrs ++ [i] } :: frames } } := by
  simp only [emit, runs_bind, runs_current]
  constructor
  · rintro ⟨_, _, ⟨rfl, rfl⟩, h⟩
    rw [hs] at h
    exact runs_updateBuilder.mp h
  · rintro rfl
    refine ⟨_, _, ⟨rfl, rfl⟩, ?_⟩
    rw [hs]
    exact runs_updateBuilder.mpr rfl

/-- Outside of ensure bodies what is emitted stands behind the line that was pending. -/
theorem runs_emit_list (hs : s.builder.ensureBodies = []) : s.Runs (emit i) v t ↔
    ∃ u, s.Runs flushLine () u ∧
      t = u.announce u.builder.instrs.size i (u.builder.append i) := by
  simp only [emit, runs_bind, runs_current]
  constructor
  · rintro ⟨_, _, ⟨rfl, rfl⟩, h⟩
    rw [hs] at h
    obtain ⟨_, u, hflush, happend⟩ := runs_bind.mp h
    exact ⟨u, hflush, runs_append.mp happend⟩
  · rintro ⟨u, hflush, rfl⟩
    refine ⟨_, _, ⟨rfl, rfl⟩, ?_⟩
    rw [hs]
    exact runs_bind.mpr ⟨(), u, hflush, runs_append.mpr rfl⟩

theorem runs_emitAtBeginning (hs : s.builder.ensureBodies = []) :
    s.Runs (emitAtBeginning i) v t ↔ t = s.announce 0 i (s.builder.prepend i) := by
  simp only [emitAtBeginning, runs_bind, runs_current]
  constructor
  · rintro ⟨_, _, ⟨rfl, rfl⟩, h⟩
    rw [hs] at h
    exact runs_prepend.mp h
  · rintro rfl
    refine ⟨_, _, ⟨rfl, rfl⟩, ?_⟩
    rw [hs]
    exact runs_prepend.mpr rfl

end Writing

section Forwarding

/-- What a super call forwards here, given the scopes around it. -/
def forwarded? (s : Session) (chain : List Scope) : Option ForwardedArgs :=
  let depth := (chain.takeWhile (·.kind.isClosureLike)).length
  let builders := s.builder :: s.outer
  if (builders.take depth).any (·.buildsDefinedMethod) then none
  else
    match chain[depth]? with
    | none => none
    | some x =>
      if x.kind ≠ .method then none
      else
        match builders[depth]? with
        | some b => some (.ofInstrs b.instrs.toList depth (b.flags.contains .receivesKeywordArgs))
        | none =>
          some (.ofInstrs (x.instrs.getD []) depth (x.flags.contains .receivesKeywordArgs))

theorem forwardedArgs?_eq : forwardedArgs? = (do
    let s ← get
    liftM (do return s.forwarded? (← s.registry.lexicalChain s.builder.scope)
      : Except Fault (Option ForwardedArgs))) := by
  unfold forwardedArgs?
  refine congrArg (get >>= ·) (funext fun s => ?_)
  cases s.registry.lexicalChain s.builder.scope with
  | error e => rfl
  | ok chain =>
    have hlift : ∀ {α β : Type} (a : α) (f : α → SessionM β),
        ((liftM (.ok a : Except Fault α) : SessionM α) >>= f) = f a := fun _ _ => rfl
    rw [hlift]
    have hpure : (do return s.forwarded? (← .ok chain) : Except Fault (Option ForwardedArgs)) =
        .ok (s.forwarded? chain) := rfl
    rw [hpure]
    dsimp only [forwarded?]
    split
    · rfl
    cases chain[(chain.takeWhile (·.kind.isClosureLike)).length]? with
    | none => rfl
    | some x =>
      dsimp only
      split
      · rfl
      · cases (s.builder :: s.outer)[(chain.takeWhile (·.kind.isClosureLike)).length]? <;> rfl

theorem forwardedArgs?_of_chain {chain : List Scope}
    (h : s.registry.lexicalChain s.builder.scope = .ok chain) :
    forwardedArgs? s = (.ok (s.forwarded? chain), s) := by
  have hget : forwardedArgs? s = (liftM (do
      return s.forwarded? (← s.registry.lexicalChain s.builder.scope) :
        Except Fault (Option ForwardedArgs)) : SessionM _) s := by
    rw [forwardedArgs?_eq]
    rfl
  rw [hget, h]
  rfl

theorem runs_forwarded {args : Option ForwardedArgs} : s.Runs forwardedArgs? args t ↔
    ∃ chain, s.registry.lexicalChain s.builder.scope = .ok chain ∧ args = s.forwarded? chain ∧
      s = t := by
  constructor
  · intro h
    cases hchain : s.registry.lexicalChain s.builder.scope with
    | error e =>
      rw [forwardedArgs?_eq] at h
      simp only [runs_bind, runs_get, runs_liftM_except] at h
      obtain ⟨_, _, ⟨rfl, rfl⟩, h, -⟩ := h
      rw [hchain] at h
      cases h
    | ok chain =>
      rw [Runs, forwardedArgs?_of_chain hchain] at h
      cases h
      exact ⟨chain, rfl, rfl, rfl⟩
  · rintro ⟨chain, hchain, rfl, rfl⟩
    exact forwardedArgs?_of_chain hchain

end Forwarding

end Session

end ScopeIR
