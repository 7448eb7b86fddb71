import ScopeIR.Proofs.Finishing
import ScopeIR.Proofs.Operations

/-! What basic actions change, one thing at a time: a counter or the journal of the registry, the
scope's own list, the ensure body at work, flags, or what the builder notes for itself. Whatever each
such change keeps, every basic action keeps, however it ends. -/

namespace ScopeIR.Session

variable {α β : Type} {P Q : Instr → Prop} {F : ScopeFlags → Prop} {s t u : Session} {i : Instr}

/-- One change. What joins the list or the body at work is as `P` says, what comes to stand in front
even though a body is at work as `Q` says, and the flags that are set as `F` says. -/
inductive Touch (P Q : Instr → Prop) (F : ScopeFlags → Prop) (s : Session) : Session → Prop
  | label {stem : String} {l : Label} {g : Registry} :
    s.registry.Runs (RegistryM.newLabel s.builder.scope stem) l g →
      Touch P Q F s { s with registry := g }
  | temp {id : ScopeId} {n : UInt64} {g : Registry} :
    s.registry.Runs (RegistryM.nextTemp id) n g → Touch P Q F s { s with registry := g }
  | closure {c : ScopeId} {g : Registry} :
    s.registry.Runs (RegistryM.addClosure s.builder.scope c) () g →
      Touch P Q F s { s with registry := g }
  | record {e : Event} : e.isQuiet → Touch P Q F s { s with registry := s.registry.recorded e }
  | append {i : Instr} : P i → s.builder.ensureBodies = [] →
    Touch P Q F s (s.announce s.builder.instrs.size i (s.builder.append i))
  | prepend {i : Instr} : Q i ∨ P i ∧ s.builder.ensureBodies = [] →
    Touch P Q F s (s.announce 0 i (s.builder.prepend i))
  | fill {frame : EnsureFrame} {frames : List EnsureFrame} {xs : List Instr} :
    s.builder.ensureBodies = frame :: frames → (∀ j ∈ xs, j ∈ frame.instrs ∨ P j) →
      Touch P Q F s { s with builder := { s.builder with
        ensureBodies := { frame with instrs := xs } :: frames } }
  | flags {flags : ScopeFlags} : F flags →
    Touch P Q F s { s with builder := s.builder.insertFlags flags }
  | note {line : LineLatch} {needsYieldBlock : Bool} {yieldClosure currentModule : Option Variable}
      {closureStart : Option Label} : (s.builder.closureStart.isSome → closureStart.isSome) →
    Touch P Q F s { s with builder := { s.builder with
      line, needsYieldBlock, yieldClosure, currentModule, closureStart } }

abbrev Touches (P Q : Instr → Prop) (F : ScopeFlags → Prop) (s t : Session) : Prop :=
  Relation.ReflTransGen (Touch P Q F) s t

/-- However the action ends, such changes are all that it makes. -/
abbrev Touching (P Q : Instr → Prop) (F : ScopeFlags → Prop) (s : Session) (x : SessionM α) : Prop :=
  s.Touches P Q F (x s).2

theorem Touches.of_runs {x : SessionM α} {a : α} (hx : s.Touching P Q F x) (h : s.Runs x a t) :
    s.Touches P Q F t := by
  rwa [Touching, h] at hx

theorem touching_bind {x : SessionM α} {f : α → SessionM β} (hx : s.Touching P Q F x)
    (hf : ∀ {a t}, s.Runs x a t → t.Touching P Q F (f a)) : s.Touching P Q F (x >>= f) :=
  leads_bind (fun h _ h' => h.trans h') hx hf

theorem touching_pure {a : α} : s.Touching P Q F (pure a) := .refl

theorem touching_current : s.Touching P Q F current := .refl

theorem touching_get : s.Touching P Q F get := .refl

theorem touching_except {x : Except Fault α} : s.Touching P Q F (liftM x) := by
  cases x <;> exact .refl

theorem touching_liftM {x : RegistryM α}
    (hx : ∀ {a g}, s.registry.Runs x a g → s.Touches P Q F { s with registry := g }) :
    s.Touching P Q F (liftM x) := by
  rw [Touching, liftM_apply]
  rcases hr : x s.registry with e | ⟨a, g⟩
  · exact .refl
  · exact hx hr

theorem touching_scope {id : ScopeId} : s.Touching P Q F (liftM (RegistryM.scope id)) :=
  touching_liftM fun hr => by rw [← (Registry.runs_scope.mp hr).2]

theorem touching_ownScope : s.Touching P Q F ownScope :=
  touching_bind touching_current fun _ => touching_scope

theorem touching_record {e : Event} (he : e.isQuiet) :
    s.Touching P Q F (liftM (RegistryM.record e)) := .single (.record he)

theorem touching_newLabelNamed {stem : String} : s.Touching P Q F (newLabelNamed stem) :=
  touching_liftM fun hr => .single (.label hr)

theorem touching_nextTemp {id : ScopeId} : s.Touching P Q F (liftM (RegistryM.nextTemp id)) :=
  touching_liftM fun hr => .single (.temp hr)

theorem touching_addClosure {c : ScopeId} : s.Touching P Q F (addClosure c) :=
  touching_liftM fun hr => .single (.closure hr)

theorem touching_temp : s.Touching P Q F temp := by
  refine touching_bind touching_get fun _ => touching_bind touching_nextTemp fun _ => ?_
  exact touching_bind touching_scope fun _ => touching_pure

theorem touching_currentModuleVar : s.Touching P Q F currentModuleVar := by
  refine touching_bind touching_current fun _ => ?_
  split
  · exact touching_pure
  · refine touching_bind touching_nextTemp fun _ => ?_
    exact touching_bind (.single (.note id)) fun _ => touching_pure

theorem touching_yieldClosureVar : s.Touching P Q F yieldClosureVar := by
  refine touching_bind (.single (.note id)) fun _ => touching_bind touching_current fun _ => ?_
  split
  · exact touching_pure
  · refine touching_bind touching_temp fun _ => ?_
    exact touching_bind (.single (.note id)) fun _ => touching_pure

theorem touching_newClosureStart : s.Touching P Q F newClosureStart := by
  refine touching_bind touching_current fun _ => ?_
  exact touching_bind (.single (.note fun _ => rfl)) fun _ => touching_pure

theorem touching_insertFlags {flags : ScopeFlags} (hflags : F flags) :
    s.Touching P Q F (insertFlags flags) := .single (.flags hflags)

theorem touching_append (hi : P i) (hs : s.builder.ensureBodies = []) :
    s.Touching P Q F (append i) := .single (.append hi hs)

theorem touching_prepend (hi : Q i ∨ P i ∧ s.builder.ensureBodies = []) :
    s.Touching P Q F (prepend i) := .single (.prepend hi)

theorem touching_emitAtBeginning (hi : P i) : s.Touching P Q F (emitAtBeginning i) := by
  refine touching_bind touching_current fun hcurrent => ?_
  obtain ⟨rfl, rfl⟩ := runs_current.mp hcurrent
  split
  · next frame frames hframes =>
    refine .single (.fill hframes fun j hj => ?_)
    rcases List.mem_cons.mp hj with rfl | hj
    · exact .inr hi
    · exact .inl hj
  · next hnil => exact touching_prepend (.inr ⟨hi, hnil⟩)

theorem touching_loadBlock (hP : ∀ v, P (.loadImplicitClosure v)) {b : Builder} :
    s.Touching P Q F (loadBlock b) := by
  unfold loadBlock
  split
  · exact touching_bind touching_yieldClosureVar fun _ => touching_emitAtBeginning (hP _)
  · exact touching_pure

theorem touching_mapM_scope {ids : List ScopeId} :
    s.Touching P Q F (ids.mapM fun id => liftM (RegistryM.scope id)) := by
  induction ids generalizing s with
  | nil => exact touching_pure
  | cons id ids ih =>
    rw [List.mapM_cons]
    exact touching_bind touching_scope fun _ => touching_bind ih fun _ => touching_pure

section Lines

variable (hP : ∀ {i : Instr}, i.isLine → P i)
include hP

/-- Lines are only written outside of ensure bodies. -/
theorem touching_flushLine (hs : s.builder.ensureBodies = []) : s.Touching P Q F flushLine := by
  cases hline : s.builder.line.pending with
  | none =>
    rw [Touching, flushLine_of_none hline]
  | some line =>
    rw [Touching, flushLine_of_some hline]
    have hlined : s.Touches P Q F (s.lined line) :=
      .tail (.single (.note id)) (.append (hP rfl) hs)
    split
    · refine hlined.trans (touching_bind touching_currentModuleVar fun hmodule => ?_)
      have hbodies := (emits_of_currentModuleVar hmodule).bodies.trans (addToBody_nil _)
      refine touching_bind touching_get fun hget => touching_bind touching_except fun hmethod => ?_
      obtain ⟨rfl, rfl⟩ := runs_get.mp hget
      obtain ⟨-, rfl⟩ := runs_liftM_except.mp hmethod
      refine touching_bind touching_ownScope fun hscope => touching_bind touching_except fun hnext => ?_
      obtain ⟨-, rfl⟩ := runs_ownScope.mp hscope
      obtain ⟨-, rfl⟩ := runs_liftM_except.mp hnext
      exact touching_append (hP rfl) (hbodies.trans hs)
    · exact hlined

theorem touching_emit (hi : P i) : s.Touching P Q F (emit i) := by
  refine touching_bind touching_current fun hcurrent => ?_
  obtain ⟨rfl, rfl⟩ := runs_current.mp hcurrent
  split
  · next frame frames hframes =>
    refine .single (.fill hframes fun j hj => ?_)
    rcases List.mem_append.mp hj with hj | hj
    · exact .inl hj
    · exact .inr (List.mem_singleton.mp hj ▸ hi)
  · next hnil =>
    refine touching_bind (touching_flushLine hP hnil) fun hflush => touching_append hi ?_
    rw [(emits_of_flushLine hflush hnil).bodies, hnil, addToBody]

theorem Made.touches {x : SessionM α} (h : s.Made P Q F x) : s.Touching P Q F x := by
  induction h with
  | still hx => rw [Touching, hx]
  | bind _ _ ihx ihf => exact touching_bind ihx ihf
  | newLabelNamed => exact touching_newLabelNamed
  | temp => exact touching_temp
  | currentModuleVar => exact touching_currentModuleVar
  | yieldClosureVar => exact touching_yieldClosureVar
  | newClosureStart => exact touching_newClosureStart
  | record he => exact touching_record he
  | addClosure => exact touching_addClosure
  | emit hi => exact touching_emit hP hi
  | prepend hi => exact touching_prepend (.inl hi)
  | insertFlags hflags => exact touching_insertFlags hflags

end Lines

end ScopeIR.Session
