import ScopeIR.Proofs.Nested
import ScopeIR.Proofs.Touches

/-! What single operations do, whether they succeed or not: which instructions join the scope's own
list, what this says about the builder's flags, and what waits in ensure bodies. -/

namespace ScopeIR

/-- Holds of copies of what it holds of, and of all that moves no control to another scope. -/
structure Carried (P : Instr → Prop) : Prop where
  rename {i : Instr} (ρ : Renaming) : P i → P (i.rename ρ)
  of_not_transfer {i : Instr} : ¬ i.isTransfer → P i

theorem Carried.lenient {P : Instr → Prop} (hP : Carried P) : Lenient P where
  rename := hP.rename
  plain hi := hP.of_not_transfer (Bool.eq_false_iff.mp (Bool.or_eq_false_iff.mp hi).2)

theorem Carried.of_isLine {P : Instr → Prop} (hP : Carried P) {i : Instr} (hi : i.isLine) : P i :=
  hP.of_not_transfer (by cases i <;> first | exact Bool.false_ne_true | cases hi)

/-- Every instruction in the open and in the active ensure bodies is as `P` says. -/
def Builder.Holds (P : Instr → Prop) (b : Builder) : Prop :=
  ∀ f ∈ b.ensures ++ b.ensureBodies, ∀ i ∈ f.instrs, P i

namespace Builder.Holds

variable {P : Instr → Prop} {b c : Builder} {frame : EnsureFrame} {frames : List EnsureFrame}
  {xs : List Instr}

/-- Instructions that go to the body at work wait there. -/
theorem fill (hb : b.Holds P) (hc : c.Holds P) (hframes : b.ensureBodies = frame :: frames)
    (hxs : ∀ j ∈ xs, j ∈ frame.instrs ∨ P j) :
    Holds P { c with ensureBodies := { frame with instrs := xs } :: frames } := by
  intro f hf
  rcases List.mem_append.mp hf with hf | hf
  · exact hc f (List.mem_append_left _ hf)
  rcases List.mem_cons.mp hf with rfl | hf
  · intro j hj
    rcases hxs j hj with hj | hj
    · exact hb frame (List.mem_append_right _ (hframes ▸ List.mem_cons_self)) j hj
    · exact hj
  · exact hb f (List.mem_append_right _ (hframes ▸ List.mem_cons_of_mem _ hf))

theorem pushEnsure (hb : b.Holds P) (hframe : ∀ i ∈ frame.instrs, P i) :
    Holds P { b with ensures := frame :: b.ensures } := by
  intro f hf
  rcases List.mem_cons.mp hf with rfl | hf
  · exact hframe
  · exact hb f hf

theorem enterBody (hb : b.Holds P) (hframe : ∀ i ∈ frame.instrs, P i) :
    Holds P { b with ensureBodies := frame :: b.ensureBodies } := by
  intro f hf
  rcases List.mem_append.mp hf with hf | hf
  · exact hb f (List.mem_append_left _ hf)
  rcases List.mem_cons.mp hf with rfl | hf
  · exact hframe
  · exact hb f (List.mem_append_right _ hf)

theorem popEnsure (hb : b.Holds P) (hc : c.Holds P) :
    Holds P { c with ensures := b.ensures.tail } := by
  intro f hf
  rcases List.mem_append.mp hf with hf | hf
  · exact hb f (List.mem_append_left _ (List.mem_of_mem_tail hf))
  · exact hc f (List.mem_append_right _ hf)

theorem exitBody (hb : b.Holds P) (hc : c.Holds P) :
    Holds P { c with ensureBodies := b.ensureBodies.tail } := by
  intro f hf
  rcases List.mem_append.mp hf with hf | hf
  · exact hc f (List.mem_append_left _ hf)
  · exact hb f (List.mem_append_right _ (List.mem_of_mem_tail hf))

end Builder.Holds

namespace Registry

variable {g g' : Registry} {id : ScopeId}

/-- No scope is added, and closures are only added to those that a scope has. -/
structure Serves (g g' : Registry) : Prop extends g.Keeps g' where
  closures {id : ScopeId} {x y : Scope} :
    g.scope? id = some x → g'.scope? id = some y → x.closures ⊆ y.closures

theorem Serves.refl (g : Registry) : g.Serves g where
  toKeeps := .refl g
  closures hx hy := by
    obtain rfl := Option.some.inj (hx.symm.trans hy)
    exact List.Subset.refl _

theorem Serves.trans {g₁ g₂ g₃ : Registry} (h : g₁.Serves g₂) (h' : g₂.Serves g₃) :
    g₁.Serves g₃ where
  toKeeps := h.toKeeps.trans h'.toKeeps
  closures hx hz := by
    obtain ⟨y, hy, -⟩ := h.scope hx
    exact List.Subset.trans (h.closures hx hy) (h'.closures hy hz)

theorem serves_of_record {e : Event} {u : Unit} (h : g.Runs (RegistryM.record e) u g') :
    g.Serves g' := by
  obtain rfl := runs_record.mp h
  refine ⟨⟨⟨rfl, fun hx => ⟨_, hx, .refl _⟩⟩, rfl⟩, fun hx hy => ?_⟩
  obtain rfl := Option.some.inj (hx.symm.trans hy)
  exact List.Subset.refl _

theorem serves_recorded (g : Registry) (e : Event) : g.Serves (g.recorded e) :=
  serves_of_record (u := ()) (runs_record.mpr rfl)

theorem Serves.setScope {x y : Scope} (hx : g.scope? id = some x) (hxy : x.GrowsTo y)
    (hclosures : x.closures ⊆ y.closures) : g.Serves (g.setScope id y) where
  toKeeps := ⟨.setScope hx hxy, Array.size_setIfInBounds⟩
  closures {id' x' y'} hx' hy' := by
    by_cases hid : id' = id
    · subst hid
      obtain rfl := Option.some.inj (hx.symm.trans hx')
      obtain rfl := Option.some.inj ((scope?_setScope_self hx).symm.trans hy')
      exact hclosures
    · obtain rfl := Option.some.inj (hx'.symm.trans ((scope?_setScope_ne hid).symm.trans hy'))
      exact List.Subset.refl _

theorem serves_of_addClosure {closure : ScopeId} {u : Unit}
    (h : g.Runs (RegistryM.addClosure id closure) u g') : g.Serves g' := by
  obtain ⟨x, hx, rfl⟩ := runs_updateScope.mp h
  split
  · exact .setScope hx (.refl x) (List.Subset.refl _)
  · exact .setScope hx ⟨rfl, le_rfl, le_rfl⟩ (List.subset_append_left _ _)

theorem serves_of_newLabel {stem : String} {l : Label}
    (h : g.Runs (RegistryM.newLabel id stem) l g') : g.Serves g' := by
  obtain ⟨x, next, hx, hnext, -, rfl⟩ := eq_of_newLabel h
  exact .setScope hx ⟨rfl, hnext ▸ Nat.le_succ _, le_rfl⟩ (List.Subset.refl _)

theorem serves_of_nextTemp {i : UInt64} (h : g.Runs (RegistryM.nextTemp id) i g') :
    g.Serves g' := by
  obtain ⟨x, next, hx, hnext, -, rfl⟩ := eq_of_nextTemp h
  exact .setScope hx ⟨rfl, le_rfl, hnext ▸ Nat.le_succ _⟩ (List.Subset.refl _)

end Registry

/-- Instructions joined the scope's own list at its ends, and the builder knows what they reveal about
the scope. Apart from that, it may know that there is a loop, and that a super call was refused. -/
structure Session.Writes (P : Instr → Prop) (refused : Prop) (s t : Session) : Prop where
  registry : s.registry.Serves t.registry
  outer : t.outer = s.outer
  scope : t.builder.scope = s.builder.scope
  list : ∃ front back,
    t.builder.instrs.toList = front ++ s.builder.instrs.toList ++ back ∧
    (∀ f, f ≠ .hasLoops → (t.builder.flags.contains f ↔ s.builder.flags.contains f ∨
      (∃ i ∈ front ++ back, i.scopeFlags.contains f) ∨ f = .usesZSuper ∧ refused)) ∧
    (s.builder.Holds P → ∀ i ∈ front ++ back, P i)
  holds : s.builder.Holds P → t.builder.Holds P

namespace Session

variable {α β : Type} {P : Instr → Prop} {r r' : Prop} {s t u : Session} {i : Instr}

namespace Writes

theorem trans (h : s.Writes P r t) (h' : t.Writes P r' u) : s.Writes P (r ∨ r') u where
  registry := h.registry.trans h'.registry
  outer := h'.outer.trans h.outer
  scope := h'.scope.trans h.scope
  list := by
    obtain ⟨front, back, hlist, hflags, hnew⟩ := h.list
    obtain ⟨front', back', hlist', hflags', hnew'⟩ := h'.list
    refine ⟨front' ++ front, back ++ back', ?_, ?_, ?_⟩
    · simp only [hlist', hlist, List.append_assoc]
    · intro f hf
      rw [hflags' f hf, hflags f hf]
      simp only [List.mem_append, or_and_right, exists_or, and_or_left]
      constructor
      · rintro ((h | (h | h) | h) | (h | h) | h)
        · exact .inl h
        · exact .inr (.inl (.inl (.inr h)))
        · exact .inr (.inl (.inr (.inl h)))
        · exact .inr (.inr (.inl h))
        · exact .inr (.inl (.inl (.inl h)))
        · exact .inr (.inl (.inr (.inr h)))
        · exact .inr (.inr (.inr h))
      · rintro (h | ((h | h) | (h | h)) | (h | h))
        · exact .inl (.inl h)
        · exact .inr (.inl (.inl h))
        · exact .inl (.inr (.inl (.inl h)))
        · exact .inl (.inr (.inl (.inr h)))
        · exact .inr (.inl (.inr h))
        · exact .inl (.inr (.inr h))
        · exact .inr (.inr h)
    · intro hs i hi
      simp only [List.mem_append] at hi hnew hnew'
      rcases hi with (hi | hi) | (hi | hi)
      · exact hnew' (h.holds hs) i (.inl hi)
      · exact hnew hs i (.inl hi)
      · exact hnew hs i (.inr hi)
      · exact hnew' (h.holds hs) i (.inr hi)
  holds hs := h'.holds (h.holds hs)

theorem andThen (h : s.Writes P False t) (h' : t.Writes P r u) : s.Writes P r u := by
  simpa only [false_or] using h.trans h'

/-- A change of the builder that leaves its list and all but one of its flags alone. -/
theorem of_builder {b : Builder} (hscope : b.scope = s.builder.scope)
    (hlist : b.instrs = s.builder.instrs)
    (hflags : ∀ f, f ≠ .hasLoops → (b.flags.contains f ↔ s.builder.flags.contains f))
    (hholds : s.builder.Holds P → b.Holds P) : s.Writes P False { s with builder := b } where
  registry := .refl _
  outer := rfl
  scope := hscope
  list := ⟨[], [], by simp only [hlist, List.nil_append, List.append_nil],
    fun f hf => by simp [hflags f hf], fun _ _ hi => nomatch hi⟩
  holds := hholds

theorem of_registry {g : Registry} (h : s.registry.Serves g) :
    s.Writes P False { s with registry := g } :=
  { of_builder (s := s) (b := s.builder) rfl rfl (fun _ _ => Iff.rfl) id with registry := h }

theorem refl (s : Session) : s.Writes P False s := of_registry (.refl _)

end Writes

/-- However the action ends, it writes as `P` says. -/
abbrev Does (P : Instr → Prop) (s : Session) (x : SessionM α) : Prop := s.Writes P False (x s).2

theorem does_bind {x : SessionM α} {f : α → SessionM β} (hx : s.Does P x)
    (hf : ∀ {a t}, s.Runs x a t → t.Does P (f a)) : s.Does P (x >>= f) :=
  leads_bind (fun h _ h' => h.andThen h') hx hf

theorem does_pure {a : α} : s.Does P (pure a) := .refl s

theorem does_current : s.Does P current := .refl s

theorem writes_append (hi : P i) :
    s.Writes P False (s.announce s.builder.instrs.size i (s.builder.append i)) where
  registry := Registry.serves_recorded _ _
  outer := rfl
  scope := rfl
  list := by
    refine ⟨[], [i], ?_, fun f _ => ?_, fun _ j hj => ?_⟩
    · simp only [announce, Builder.append, Array.toList_push, List.nil_append]
    · simp [announce, Builder.append, FlagSet.contains_union]
    · exact List.mem_singleton.mp hj ▸ hi
  holds hs := hs

theorem writes_prepend (hi : P i) : s.Writes P False (s.announce 0 i (s.builder.prepend i)) where
  registry := Registry.serves_recorded _ _
  outer := rfl
  scope := rfl
  list := by
    refine ⟨[i], [], ?_, fun f _ => ?_, fun _ j hj => ?_⟩
    · simp only [announce, Builder.prepend, Array.toList_append, List.append_nil]
    · simp [announce, Builder.prepend, FlagSet.contains_union]
    · exact List.mem_singleton.mp hj ▸ hi
  holds hs := hs

theorem Touch.writes (h : s.Touch P P (· = {.hasLoops}) t) : s.Writes P False t := by
  cases h with
  | label hr => exact .of_registry (Registry.serves_of_newLabel hr)
  | temp hr => exact .of_registry (Registry.serves_of_nextTemp hr)
  | closure hr => exact .of_registry (Registry.serves_of_addClosure hr)
  | record => exact .of_registry (Registry.serves_recorded _ _)
  | append hi => exact writes_append hi
  | prepend hi => exact writes_prepend (hi.elim id And.left)
  | fill hframes hxs =>
    exact .of_builder rfl rfl (fun _ _ => Iff.rfl) fun hs => hs.fill hs hframes hxs
  | note => exact .of_builder rfl rfl (fun _ _ => Iff.rfl) id
  | flags hflags =>
    refine .of_builder rfl rfl (fun f hf => ?_) id
    rw [hflags]
    simp only [Builder.insertFlags, FlagSet.contains_union, Bool.or_eq_true,
      FlagSet.contains_singleton, or_iff_left hf.symm]

theorem Touches.writes (h : s.Touches P P (· = {.hasLoops}) t) : s.Writes P False t := by
  induction h with
  | refl => exact .refl s
  | tail _ hstep ih => exact ih.andThen hstep.writes

theorem Touches.serves (h : s.Touches (fun _ => True) (fun _ => True) (· = {.hasLoops}) t) :
    s.registry.Serves t.registry := h.writes.registry

/-- Whatever basic actions do, they write. -/
theorem Made.does (hP : Carried P) {x : SessionM α} (h : s.Made P P (· = {.hasLoops}) x) :
    s.Does P x :=
  (h.touches hP.of_isLine).writes

/-- Where something else waits in an ensure body nothing is said about what is emitted. -/
theorem Writes.of_not_holds (h : s.Writes (fun _ => True) r t) (hs : ¬ s.builder.Holds P) :
    s.Writes P r t where
  registry := h.registry
  outer := h.outer
  scope := h.scope
  list := by
    obtain ⟨front, back, hlist, hflags, -⟩ := h.list
    exact ⟨front, back, hlist, hflags, fun h => absurd h hs⟩
  holds h := absurd h hs

theorem does_copyEnsures (hP : Carried P) {loop : Option LoopId} :
    s.Does P (copyEnsures loop) := by
  by_cases hs : s.builder.Holds P
  · exact (made_copyEnsures hP.lenient fun f hf => hs f (List.mem_append_left _ hf)).does hP
  · have hcopies : s.Made (fun _ => True) (fun _ => True) (· = {.hasLoops}) (copyEnsures loop) :=
      made_copyEnsures lenient_true fun _ _ _ _ => trivial
    exact (hcopies.does ⟨fun _ _ => trivial, fun _ => trivial⟩).of_not_holds hs

theorem does_pushLoop : s.Does P pushLoop := by
  have hlabel {u : Session} {stem : String} : u.Does P (newLabelNamed stem) :=
    touching_newLabelNamed.writes
  refine does_bind does_current fun _ => ?_
  refine does_bind (.of_builder rfl rfl (fun _ _ => Iff.rfl) id) fun _ => ?_
  refine does_bind hlabel fun _ => does_bind hlabel fun _ => ?_
  refine does_bind hlabel fun _ => does_bind hlabel fun _ => ?_
  refine does_bind touching_temp.writes fun _ => ?_
  refine does_bind (touching_insertFlags (F := (· = {.hasLoops})) rfl).writes fun _ => ?_
  exact does_bind (.of_builder rfl rfl (fun _ _ => Iff.rfl) id) fun _ => does_pure

theorem does_pushEnsure {frame : EnsureFrame} (hframe : ∀ i ∈ frame.instrs, P i) :
    s.Does P (pushEnsure frame) :=
  .of_builder rfl rfl (fun _ _ => Iff.rfl) fun hs => hs.pushEnsure hframe

theorem does_popEnsure : s.Does P popEnsure := by
  refine does_bind does_current fun hcurrent => ?_
  obtain ⟨rfl, rfl⟩ := runs_current.mp hcurrent
  exact does_bind (.of_builder rfl rfl (fun _ _ => Iff.rfl) fun hs => hs.popEnsure hs) fun _ =>
    does_pure

theorem does_enterEnsureBody {frame : EnsureFrame} (hframe : ∀ i ∈ frame.instrs, P i) :
    s.Does P (enterEnsureBody frame) :=
  .of_builder rfl rfl (fun _ _ => Iff.rfl) fun hs => hs.enterBody hframe

theorem does_exitEnsureBody : s.Does P exitEnsureBody := by
  refine does_bind does_current fun hcurrent => ?_
  obtain ⟨rfl, rfl⟩ := runs_current.mp hcurrent
  exact does_bind (.of_builder rfl rfl (fun _ _ => Iff.rfl) fun hs => hs.exitBody hs) fun _ =>
    does_pure

/-- A refused super call still counts as one. -/
theorem writes_refusal :
    s.Writes P True { s with builder := s.builder.insertFlags {.usesZSuper} } where
  registry := .refl _
  outer := rfl
  scope := rfl
  list := by
    refine ⟨[], [], by simp only [Builder.insertFlags, List.nil_append, List.append_nil],
      fun f _ => ?_, fun _ _ hi => nomatch hi⟩
    simp [Builder.insertFlags, FlagSet.contains_union, FlagSet.contains_singleton,
      eq_comm (a := ScopeFlag.usesZSuper)]
  holds hs := hs

end Session

namespace Registry

variable {α β : Type} {id : ScopeId}

/-- No error that could be caught comes from the change. -/
def Uncatchable (x : RegistryM α) : Prop := ∀ g e, x g ≠ .error (.error e)

theorem uncatchable_bind {x : RegistryM α} {f : α → RegistryM β} (hx : Uncatchable x)
    (hf : ∀ a, Uncatchable (f a)) : Uncatchable (x >>= f) := by
  intro g e he
  simp only [bind, StateT.bind, Except.bind] at he
  split at he
  · next hfault =>
    cases he
    exact hx g e hfault
  · exact hf _ _ _ he

theorem uncatchable_scope : Uncatchable (RegistryM.scope id) := by
  refine uncatchable_bind (fun _ _ he => nomatch he) fun r g e he => ?_
  unfold Registry.scope at he
  cases hx : r.scopes[id.index.toNat]? <;> rw [hx] at he <;> cases he

theorem uncatchable_nextTemp : Uncatchable (RegistryM.nextTemp id) := by
  unfold RegistryM.nextTemp RegistryM.updateScope
  refine uncatchable_bind uncatchable_scope fun x => uncatchable_bind ?_ fun _ => ?_
  · intro g e he
    cases hnext : checkedAdd x.nextTemp 1 <;> rw [hnext] at he <;> cases he
  · refine uncatchable_bind (uncatchable_bind uncatchable_scope fun _ _ _ he => ?_) fun _ _ _ he => ?_
    · cases he
    · cases he

theorem Uncatchable.lift {x : RegistryM α} (hx : Uncatchable x) {s t : Session} {e : BuildError} :
    (liftM x : SessionM α) s ≠ (.error (.error e), t) := by
  intro he
  rw [Session.liftM_apply] at he
  rcases hr : x s.registry with e' | ⟨a, g⟩ <;> rw [hr] at he
  · cases he
    exact hx _ _ hr
  · cases he

end Registry

namespace Workshop

open Session

variable {α β : Type} {P : Instr → Prop} {s t : Session}

/-- A sequence stops at an error, or what comes first succeeds. -/
theorem settled_bind {x : SessionM α} {f : α → SessionM β} {b : Option β}
    (h : settled (x >>= f) s = some (b, t)) :
    (∃ e, x s = (.error (.error e), t)) ∨ ∃ a u, s.Runs x a u ∧ settled (f a) u = some (b, t) := by
  have heq := bind_apply x f s
  rcases hx : x s with ⟨(e | _ | _ | _) | a, u⟩ <;> rw [hx] at heq <;>
    simp only [settled, heq, reduceCtorEq, Option.some.injEq, Prod.mk.injEq] at h
  · exact .inl ⟨e, by rw [h.2]⟩
  · exact .inr ⟨a, u, hx, h⟩

/-- What comes of an action whose result is not used. -/
theorem settled_discard {x : SessionM α} {v : Option Unit}
    (h : settled (do let _ ← x) s = some (v, t)) : ∃ a, settled x s = some (a, t) := by
  rcases settled_bind h with ⟨e, he⟩ | ⟨a, u, hx, h⟩
  · exact ⟨none, by rw [settled, he]⟩
  · cases h
    exact ⟨some a, by rw [settled, hx]⟩

theorem eq_of_settled {x : SessionM α} {a : Option α} (h : settled x s = some (a, t)) :
    t = (x s).2 := by
  unfold settled at h
  split at h
  · next hx => rw [hx, (Prod.mk.inj (Option.some.inj h)).2]
  · next hx => rw [hx, (Prod.mk.inj (Option.some.inj h)).2]
  · cases h

theorem writes_of_does {x : SessionM α} {a : Option α} (h : settled x s = some (a, t))
    (hx : s.Does P x) {r : Prop} (hr : ¬ r) : s.Writes P r t := by
  obtain rfl := eq_of_settled h
  rwa [eq_false hr]

/-- No error that can be caught comes from taking a temporary. -/
theorem runs_of_settled_temp {a : Option Variable} (h : settled temp s = some (a, t)) :
    ∃ v, s.Runs temp v t := by
  rcases settled_bind h with ⟨e, he⟩ | ⟨_, _, hget, h⟩
  · cases he
  obtain ⟨rfl, rfl⟩ := runs_get.mp hget
  rcases settled_bind h with ⟨e, he⟩ | ⟨i, u, hi, h⟩
  · exact absurd he (Registry.uncatchable_nextTemp.lift)
  rcases settled_bind h with ⟨e, he⟩ | ⟨x, u, hx, h⟩
  · exact absurd he (Registry.uncatchable_scope.lift)
  cases h
  exact ⟨_, runs_bind.mpr ⟨_, _, hget, runs_bind.mpr ⟨i, _, hi, runs_bind.mpr ⟨x, _, hx,
    runs_pure.mpr ⟨rfl, rfl⟩⟩⟩⟩⟩

/-- What a super call goes on with once it is refused. -/
def complaint (result : Variable) : SessionM Variable := do
  let _ ← raiseError ⟨"RuntimeError"⟩ (.ofString BuildT.superOutsideMethod)
  return result

theorem made_complaint {Q : Instr → Prop} {F : ScopeFlags → Prop} {result : Variable}
    (hP : Lenient P) : s.Made P Q F (complaint result) :=
  .bind (made_raiseError hP) fun _ => made_pure

/-- A super call that is refused takes its temporary, counts, and has an error raised. -/
theorem refused_of_settled {block : Operand} {v : Option Variable}
    (hr : (Act.zsuper block).refuses s) (h : settled (BuildT.zsuper block) s = some (v, t)) :
    ∃ result u, s.Runs temp result u ∧
      t = (complaint result { u with builder := u.builder.insertFlags {.usesZSuper} }).2 := by
  have hargs : s.Runs forwardedArgs? none s := by
    rw [Act.refuses] at hr
    split at hr
    · next hnone =>
      have hruns := runs_of_ok hnone
      rwa [← eq_of_forwardedArgs hruns] at hruns
    · cases hr
  rcases settled_bind h with ⟨e, he⟩ | ⟨args?, _, hargs', h⟩
  · cases hargs.symm.trans he
  cases hargs.symm.trans hargs'
  -- taking a temporary raises no error that a caller sees
  rcases settled_bind h with ⟨e, he⟩ | ⟨result, u, htemp, h⟩
  · obtain ⟨v, hv⟩ := runs_of_settled_temp (s := s) (t := t) (a := none) (by
      replace he : temp s = (.error (.error e), t) := he
      rw [settled, he])
    cases he.symm.trans hv
  exact ⟨result, u, htemp, eq_of_settled h⟩

theorem writes_of_refused (hP : Carried P) {block : Operand} {v : Option Variable}
    (hr : (Act.zsuper block).refuses s) (h : settled (BuildT.zsuper block) s = some (v, t)) :
    s.Writes P True t := by
  obtain ⟨result, u, htemp, rfl⟩ := refused_of_settled hr h
  have hu : s.Writes P False u := (Touches.of_runs touching_temp htemp).writes
  have hraise : ({ u with builder := u.builder.insertFlags {.usesZSuper} } : Session).Does P
      (complaint result) := (made_complaint hP.lenient).does hP
  have ht := hu.andThen ((writes_refusal (P := P) (s := u)).trans hraise)
  rwa [or_false] at ht

end Workshop

namespace Act

open Session Workshop

variable {P : Instr → Prop} {s t : Session} {a : Act}

/-- What is not read for instructions or flags may change as it likes. -/
theorem does_rearranging {f : Builder → Builder} (hscope : (f s.builder).scope = s.builder.scope)
    (hinstrs : (f s.builder).instrs = s.builder.instrs)
    (hflags : (f s.builder).flags = s.builder.flags)
    (hensures : (f s.builder).ensures = s.builder.ensures)
    (hbodies : (f s.builder).ensureBodies = s.builder.ensureBodies) :
    s.Does P (updateBuilder f) :=
  .of_builder hscope hinstrs (fun _ _ => by rw [hflags]) fun hs => by
    rwa [Builder.Holds, hensures, hbodies]

theorem does_of_isDirect (hgiven : ∀ i ∈ a.given, P i) (ha : a.isDirect) : s.Does P a.run := by
  have hunit {α : Type} {x : SessionM α} (hx : s.Does P x) : s.Does P (do let _ ← x) :=
    does_bind hx fun _ => does_pure
  cases a with
  | note | setCoverage | setMethodName | setEvalType | pushRescue | pushRescuer =>
    exact does_rearranging rfl rfl rfl rfl rfl
  | popRescue | popRescuer | popLoop =>
    refine hunit (does_bind does_current fun hcurrent => ?_)
    obtain ⟨rfl, rfl⟩ := runs_current.mp hcurrent
    exact does_bind (does_rearranging rfl rfl rfl rfl rfl) fun _ => does_pure
  | emitAtBeginning i => exact (touching_emitAtBeginning (hgiven i (List.mem_singleton_self i))).writes
  | pushLoop => exact hunit does_pushLoop
  | pushEnsure => exact does_pushEnsure hgiven
  | popEnsure => exact hunit does_popEnsure
  | enterEnsureBody => exact does_enterEnsureBody hgiven
  | exitEnsureBody => exact hunit does_exitEnsureBody
  | _ => cases ha

theorem does_run (hP : Carried P) (hs : s.Transfers P) (hgiven : ∀ i ∈ a.given, P i)
    (hr : a.refuses s = false) : s.Does P a.run := by
  cases ha : a.isDirect with
  | true => exact does_of_isDirect hgiven ha
  | false =>
    have hmade {P' : Instr → Prop} (hP : Carried P') (hwithin : a.Within P' P' (· = {.hasLoops}) s) :
        s.Does P' a.run := (made hP.lenient hwithin ha).does hP
    by_cases hholds : s.builder.Holds P
    · exact hmade hP
        { hs with
          given := hgiven
          ensures := fun f hf => hholds f (List.mem_append_left _ hf)
          start := fun _ => hP.of_not_transfer Bool.false_ne_true
          loops := fun _ => rfl
          supers := fun h => absurd h (Bool.eq_false_iff.mp hr) }
    · have hany : a.Within (fun _ => True) (fun _ => True) (· = {.hasLoops}) s :=
        { (within_true : a.Within _ _ _ s) with
          loops := fun _ => rfl
          supers := fun h => absurd h (Bool.eq_false_iff.mp hr) }
      exact (hmade ⟨fun _ _ => trivial, fun _ => trivial⟩ hany).of_not_holds hholds

theorem writes_of_settled {v : Option Unit} (hP : Carried P) (hs : s.Transfers P)
    (hgiven : ∀ i ∈ a.given, P i) (h : settled a.run s = some (v, t)) :
    s.Writes P (a.refuses s) t := by
  cases hr : a.refuses s with
  | false => exact writes_of_does h (does_run hP hs hgiven hr) Bool.false_ne_true
  | true =>
    cases a with
    | zsuper block =>
      obtain ⟨v, hv⟩ := settled_discard h
      rw [eq_true rfl]
      exact writes_of_refused hP hr hv
    | _ => cases hr

theorem writes {v : Option Unit} (h : settled a.run s = some (v, t)) :
    s.Writes (fun _ => True) (a.refuses s) t :=
  writes_of_settled ⟨fun _ _ => trivial, fun _ => trivial⟩
    ⟨fun _ _ _ _ => trivial, fun _ _ _ _ => trivial⟩ (fun _ _ => trivial) h

end Act

end ScopeIR
