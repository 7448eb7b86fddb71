import ScopeIR.Proofs.Abandonment

/-! Exits that are turned down because there is nothing they could leave or run again. A next is the
only one of them that writes code before it finds that out. -/

namespace ScopeIR

/-- The operation that builds the exit. Breaks and nexts take a value along. -/
def Exit.run (value : Operand) : Exit → SessionM Unit
  | .break => Session.breakWith value
  | .next => BuildT.next value
  | .redo => Session.redo
  | .retry => Session.retry

/-- There is nothing in reach of the builder that the exit could leave or run again. -/
def Exit.HasNoTarget (s : Session) : Exit → Prop
  | .break => s.builder.loops = [] ∧
    ∀ x, s.registry.scope? s.builder.scope = some x → x.kind.isClosure → x.parent = none
  | .next | .redo => s.builder.loops = [] ∧
    ∀ x, s.registry.scope? s.builder.scope = some x → ¬ x.kind.isClosure
  | .retry => s.builder.rescues = []

/-- The exit would have to leave code that runs in the binding of its caller. -/
def Exit.escapes (x : Scope) : Exit → Bool
  | .break => x.kind.isClosureLike
  | .next | .redo => x.kind = .evalScript
  | .retry => false

/-- What is said of an exit that is turned down in the scope. -/
def Exit.complaint (exit : Exit) (x : Scope) (line : Int32) : BuildError :=
  if exit.escapes x then .exitFromEval exit ⟨x.file, line⟩ else .invalidExit exit ⟨x.file, line⟩

namespace Session

variable {α β : Type} {s t u : Session} {exit : Exit} {value : Operand} {cause : BuildError}

/-- The action stops with an error that a caller may catch, and leaves `t`. -/
def Fails (s : Session) (x : SessionM α) (cause : BuildError) (t : Session) : Prop :=
  x s = (.error (.error cause), t)

/-- What is complained about is the exit, at the line after the last one noted. -/
def Complains (s : Session) (exit : Exit) (cause : BuildError) : Prop :=
  ∃ x line, s.registry.scope? s.builder.scope = some x ∧
    nextLine s.builder.line.last = some line ∧ cause = exit.complaint x line

namespace Uncatchable

theorem not_fails {x : SessionM α} (hx : Uncatchable x) : ¬ s.Fails x cause t := hx s cause t

/-- An error after an action that raises none comes from what follows it. -/
theorem fails {x : SessionM α} {f : α → SessionM β} (hx : Uncatchable x)
    (h : s.Fails (x >>= f) cause t) : ∃ a u, s.Runs x a u ∧ u.Fails (f a) cause t := by
  rw [Fails, bind_apply] at h
  rcases hr : x s with ⟨e | a, u⟩ <;> rw [hr] at h
  · cases h
    exact absurd hr (hx s cause t)
  · exact ⟨a, u, hr, h⟩

theorem copyEnsures {loop : Option LoopId} : Uncatchable (copyEnsures loop) :=
  bind current fun _ => bind (forIn _ fun _ => bind copyEnsure fun _ => pure) fun _ => pure

theorem place : Uncatchable place :=
  bind ownScope fun _ => bind current fun _ => bind liftM_overflow fun _ => pure

theorem closureStart : Uncatchable closureStart := by
  unfold Session.closureStart newClosureStart prepend
  refine bind current fun b => ?_
  split
  · exact pure
  · refine bind (bind current fun _ => bind updateBuilder fun _ => pure) fun _ => ?_
    exact bind (bind current fun _ => bind record fun _ => updateBuilder) fun _ => pure

end Uncatchable

section Rejection

variable {x : Scope}

/-- Complaints leave everything as it is. -/
theorem complains_of_throw {e : Location → BuildError}
    (he : ∀ x line, s.registry.scope? s.builder.scope = some x →
      e ⟨x.file, line⟩ = exit.complaint x line)
    (h : s.Fails (do throw (.error (e (← place))) : SessionM α) cause t) :
    t = s ∧ s.Complains exit cause := by
  obtain ⟨l, u, hplace, h⟩ := Uncatchable.place.fails h
  simp only [place, runs_bind, runs_ownScope, runs_current, runs_liftM_except, runs_pure,
    Registry.orOverflow_eq_ok] at hplace
  obtain ⟨x, _, ⟨hx, rfl⟩, _, _, ⟨rfl, rfl⟩, line, _, ⟨hline, rfl⟩, rfl, rfl⟩ := hplace
  cases h
  exact ⟨rfl, x, line, hx, hline, he x line hx⟩

theorem complains_of_escaping (hx : s.registry.scope? s.builder.scope = some x)
    (hescapes : exit.escapes x) (h : s.Fails (escaping exit : SessionM α) cause t) :
    t = s ∧ s.Complains exit cause := by
  refine complains_of_throw (fun y line hy => ?_) h
  obtain rfl := Option.some.inj (hx.symm.trans hy)
  rw [Exit.complaint, if_pos hescapes]

theorem complains_of_invalid (hx : s.registry.scope? s.builder.scope = some x)
    (hescapes : ¬ exit.escapes x) (h : s.Fails (invalid exit : SessionM α) cause t) :
    t = s ∧ s.Complains exit cause := by
  refine complains_of_throw (fun y line hy => ?_) h
  obtain rfl := Option.some.inj (hx.symm.trans hy)
  rw [Exit.complaint, if_neg hescapes]

end Rejection

theorem turnsDown_break (h : s.Fails (breakWith value) cause t) :
    Exit.break.HasNoTarget s ∧ t = s ∧ s.Complains .break cause := by
  unfold breakWith at h
  obtain ⟨_, _, hcurrent, h⟩ := Uncatchable.current.fails h
  obtain ⟨rfl, rfl⟩ := runs_current.mp hcurrent
  split at h
  · have hwrites : ∀ frame : LoopFrame, Uncatchable (do
        copyEnsures (some frame.id)
        emit (.copy frame.result value)
        jump frame.loopEnd) := fun _ =>
      .bind .copyEnsures fun _ => .bind .emit fun _ => .emit
    exact absurd h (hwrites _).not_fails
  next hloop =>
  obtain ⟨x, _, hown, h⟩ := Uncatchable.ownScope.fails h
  obtain ⟨hx, rfl⟩ := runs_ownScope.mp hown
  split at h
  · exact absurd h Uncatchable.emit.not_fails
  next hkind =>
  refine ⟨⟨List.head?_eq_none_iff.mp hloop, fun y hy hclosure => ?_⟩, ?_⟩
  · obtain rfl := Option.some.inj (hx.symm.trans hy)
    cases hparent : x.parent with
    | none => rfl
    | some parent => exact (hkind parent hclosure hparent).elim
  · split at h
    · next hlike => exact complains_of_escaping hx hlike h
    · next hlike => exact complains_of_invalid hx hlike h

/-- Nexts and redos are turned down in a scope that is no closure. -/
theorem complains_of_kind {x : Scope} (hexit : ∀ y, exit.escapes y = decide (y.kind = .evalScript))
    (hx : s.registry.scope? s.builder.scope = some x)
    (h : s.Fails (if x.kind = .evalScript then escaping exit else invalid exit : SessionM α)
      cause t) : t = s ∧ s.Complains exit cause := by
  have hescapes : exit.escapes x ↔ x.kind = .evalScript := by rw [hexit, decide_eq_true_iff]
  split at h
  · next hkind => exact complains_of_escaping hx (hescapes.mpr hkind) h
  · next hkind => exact complains_of_invalid hx (mt hescapes.mp hkind) h

theorem turnsDown_redo (h : s.Fails redo cause t) :
    Exit.redo.HasNoTarget s ∧ t = s ∧ s.Complains .redo cause := by
  unfold redo at h
  obtain ⟨_, _, hcurrent, h⟩ := Uncatchable.current.fails h
  obtain ⟨rfl, rfl⟩ := runs_current.mp hcurrent
  split at h
  · exact absurd h Uncatchable.emit.not_fails
  next hloop =>
  obtain ⟨x, _, hown, h⟩ := Uncatchable.ownScope.fails h
  obtain ⟨hx, rfl⟩ := runs_ownScope.mp hown
  split at h
  · have hwrites : Uncatchable (do
        emit .threadPoll
        jump (← closureStart)) := .bind .emit fun _ => .bind .closureStart fun _ => .emit
    exact absurd h hwrites.not_fails
  next hkind =>
  refine ⟨⟨List.head?_eq_none_iff.mp hloop, fun y hy => ?_⟩,
    complains_of_kind (fun _ => rfl) hx h⟩
  obtain rfl := Option.some.inj (hx.symm.trans hy)
  exact hkind

theorem turnsDown_retry (h : s.Fails retry cause t) :
    Exit.retry.HasNoTarget s ∧ t = s ∧ s.Complains .retry cause := by
  unfold retry at h
  obtain ⟨_, _, hcurrent, h⟩ := Uncatchable.current.fails h
  obtain ⟨rfl, rfl⟩ := runs_current.mp hcurrent
  split at h
  · next hrescues => exact ⟨hrescues, complains_of_throw (fun _ _ _ => rfl) h⟩
  · have hwrites : ∀ frame : RescueFrame, Uncatchable (do
        emit .threadPoll
        emit (.putGlobal BuildT.currentException frame.savedException)
        jump frame.entry
        insertFlags {.hasLoops}) := fun _ =>
      .bind .emit fun _ => .bind .emit fun _ => .bind .emit fun _ => .updateBuilder
    exact absurd h (hwrites _).not_fails

/-- What a next writes before it knows where to go. -/
def leaveAll : SessionM Unit := do
  copyEnsures none
  emit .threadPoll

theorem turnsDown_next (h : s.Fails (BuildT.next value) cause t) :
    Exit.next.HasNoTarget s ∧ s.Runs leaveAll () t ∧ t.Complains .next cause := by
  simp only [BuildT.next, liftM_self] at h
  obtain ⟨_, _, hcurrent, h⟩ := Uncatchable.current.fails h
  obtain ⟨rfl, rfl⟩ := runs_current.mp hcurrent
  obtain ⟨_, u, hcopies, h⟩ := Uncatchable.copyEnsures.fails h
  split at h
  · exact absurd h Uncatchable.emit.not_fails
  next hloop =>
  rw [hloop] at hcopies
  obtain ⟨_, v, hpoll, h⟩ := Uncatchable.emit.fails h
  obtain ⟨x, _, hown, h⟩ := Uncatchable.ownScope.fails h
  obtain ⟨hx, rfl⟩ := runs_ownScope.mp hown
  split at h
  · exact absurd h Uncatchable.emit.not_fails
  next hkind =>
  obtain ⟨rfl, hcomplains⟩ := complains_of_kind (fun _ => rfl) hx h
  refine ⟨⟨List.head?_eq_none_iff.mp hloop, fun y hy => ?_⟩,
    runs_bind.mpr ⟨(), u, hcopies, hpoll⟩, hcomplains⟩
  obtain ⟨cs, hcs⟩ := copiesAll_of_copyEnsures hcopies
  have hemits := hcs.emits.trans (emits_of_emit hpoll)
  obtain ⟨z, hz, hyz⟩ := hemits.registry.scope hy
  obtain rfl := Option.some.inj (hx.symm.trans (hemits.scope ▸ hz))
  rwa [← hyz.kind_eq]

section Growth

/-- No operation takes anything out of the scope's own list. -/
theorem Writes.size_le {P : Instr → Prop} {refused : Prop} (h : s.Writes P refused t) :
    s.builder.instrs.size ≤ t.builder.instrs.size := by
  obtain ⟨front, back, hlist, -, -⟩ := h.list
  have hlength := congrArg List.length hlist
  simp only [List.length_append, Array.length_toList] at hlength
  omega

theorem Writes.of_runs {P : Instr → Prop} {x : SessionM α} {a : α} (hx : s.Does P x)
    (h : s.Runs x a t) : s.Writes P False t := by
  rwa [Does, h] at hx

theorem carried_true : Carried fun _ => True := ⟨fun _ _ => trivial, fun _ => trivial⟩

theorem size_lt_of_emit {i : Instr} {v : Unit} (h : s.Runs (emit i) v t)
    (hs : s.builder.ensureBodies = []) : s.builder.instrs.size < t.builder.instrs.size := by
  obtain ⟨u, hflush, rfl⟩ := (runs_emit_list hs).mp h
  have hle := (Touches.of_runs (touching_flushLine (fun _ => trivial) hs) hflush).writes
    (P := fun _ => True)
  refine hle.size_le.trans_lt ?_
  rw [announce, Builder.append, Array.size_push]
  exact Nat.lt_succ_self _

/-- The poll is there, in the scope's own list or in the ensure body at work. -/
theorem ne_of_leaveAll {v : Unit} (h : s.Runs leaveAll v t) : t ≠ s := by
  obtain ⟨_, u, hcopies, hpoll⟩ := runs_bind.mp h
  obtain ⟨cs, hcs⟩ := copiesAll_of_copyEnsures hcopies
  rintro rfl
  cases hbodies : t.builder.ensureBodies with
  | nil =>
    have hle := (Writes.of_runs (does_copyEnsures carried_true) hcopies).size_le
    have hlt := size_lt_of_emit hpoll (by rw [hcs.emits.bodies, hbodies, addToBody])
    omega
  | cons frame frames =>
    have hadded := (hcs.emits.trans (emits_of_emit hpoll)).bodies
    rw [hbodies] at hadded
    have hinstrs := congrArg EnsureFrame.instrs (List.cons.inj hadded).1
    have hlength := congrArg List.length hinstrs
    simp only [List.length_append, List.length_singleton] at hlength
    omega

end Growth

/-- The exit is turned down, and `t` is left of the session `s`. -/
structure TurnsDown (s : Session) (exit : Exit) (cause : BuildError) (t : Session) : Prop where
  noTarget : exit.HasNoTarget s
  complains : t.Complains exit cause
  unchanged : t = s ↔ exit ≠ .next
  written : exit = .next → s.Runs leaveAll () t ∧
    ∃ cs u, CopiesAll s.builder.ensures s u cs ∧ s.Emits t (cs ++ [.threadPoll])

/-- Breaks, redos and retries that fail leave everything as it was before. A next has written the copies
of all ensure bodies and a poll by then, and nothing else. -/
theorem turnsDown_of_fails (h : s.Fails (exit.run value) cause t) : s.TurnsDown exit cause t := by
  cases exit with
  | «break» =>
    obtain ⟨htarget, rfl, hcomplains⟩ := turnsDown_break h
    exact ⟨htarget, hcomplains, ⟨fun _ => nofun, fun _ => rfl⟩, nofun⟩
  | redo =>
    obtain ⟨htarget, rfl, hcomplains⟩ := turnsDown_redo h
    exact ⟨htarget, hcomplains, ⟨fun _ => nofun, fun _ => rfl⟩, nofun⟩
  | retry =>
    obtain ⟨htarget, rfl, hcomplains⟩ := turnsDown_retry h
    exact ⟨htarget, hcomplains, ⟨fun _ => nofun, fun _ => rfl⟩, nofun⟩
  | next =>
    obtain ⟨htarget, hleaves, hcomplains⟩ := turnsDown_next h
    have hne := ne_of_leaveAll hleaves
    refine ⟨htarget, hcomplains, ⟨fun heq => absurd heq hne, fun h => absurd rfl h⟩, fun _ => ?_⟩
    obtain ⟨_, u, hcopies, hpoll⟩ := runs_bind.mp hleaves
    obtain ⟨cs, hcs⟩ := copiesAll_of_copyEnsures hcopies
    exact ⟨hleaves, cs, u, hcs, hcs.emits.trans (emits_of_emit hpoll)⟩

/-- In a method, inside of a region with a cleanup. -/
def insideRegion : Session :=
  let cleanup : EnsureFrame := {
    regionStart := ⟨"LBL", 0⟩, bodyStart := ⟨"LBL", 1⟩, bodyEnd := ⟨"LBL", 2⟩
    dummyRescue := ⟨"LBL", 3⟩, rescuer := .unrescued, innermostLoop := none, instrs := [.nop] }
  { single .method with builder := { (single .method).builder with ensures := [cleanup] } }

theorem turnsDown_of_fails_nextInRegion : ∃ cause t,
    insideRegion.Fails (Exit.next.run .nil) cause t ∧ insideRegion.TurnsDown .next cause t ∧
      t.builder.instrs.size = 5 := by
  have h : insideRegion.Fails (Exit.next.run .nil) (.invalidExit .next ⟨"main.rb", 0⟩) _ := rfl
  exact ⟨_, _, h, turnsDown_of_fails h, rfl⟩

end Session

end ScopeIR
