import ScopeIR.Proofs.Openness

/-! What stays open after bodies that fail. A loop, the body of an ensure and the body of a rescue
that end in an error leave their frames on the stacks; a cleanup, a handler and a nested scope do not.
A log of the failures says, for a caller that catches the error, what is still open. -/

namespace ScopeIR

variable {α β : Type}

/-- The constructs that a body which fails leaves open. -/
inductive Construct where
  | loop
  | ensure
  | rescue
  deriving DecidableEq

/-- Building that logs the constructs whose bodies failed, the last one first. -/
abbrev LogM := BuildT (StateM (List Construct))

/-- Logs the construct if `x` ends in an error that callers may catch. -/
def LogM.noting (c : Construct) (x : LogM α) : LogM α := ExceptT.mk fun s l =>
  match x s l with
  | ((.error (.error e), t), k) => ((.error (.error e), t), c :: k)
  | ended => ended

open LogM Session

/-- What is handed to a construct: operations that open and close nothing, and constructs around
such actions again. A body that can leave its construct open is noted; what is built in a nested scope
may be anything. -/
inductive Callback : {α : Type} → LogM α → Prop
  | pure {α : Type} (a : α) : Callback (pure a : LogM α)
  | throw {α : Type} (e : BuildError) : Callback (throw (.error e) : LogM α)
  | bind {α β : Type} {x : LogM α} {f : α → LogM β} : Callback x → (∀ a, Callback (f a)) →
    Callback (x >>= f)
  | operation {α : Type} {x : SessionM α} : (∀ s : Session, s.Stays x) → Callback (liftM x : LogM α)
  | attempt {α : Type} {x : LogM α} : Callback x → Callback (BuildT.attempt x)
  | loop {condition : LogM Operand} {body : LogM Unit} (goOn testFirst : Bool) :
    Callback condition → Callback body →
      Callback (BuildT.loop (noting .loop condition) (noting .loop body) goOn testFirst)
  | ensure {body cleanup : LogM Operand} : Callback body → Callback cleanup →
    Callback (BuildT.ensure (noting .ensure body) cleanup)
  | rescue {body : LogM Operand} {handler : Variable → LogM Operand} : Callback body →
    (∀ v, Callback (handler v)) → Callback (BuildT.rescue (noting .rescue body) handler)
  | block (method : Symbol) (body : SessionM Unit) :
    Callback (BuildT.block method (liftM body) : LogM Operand)
  | nested (kind : ScopeKind) (name : Symbol) (body : SessionM Unit) :
    Callback (BuildT.nested kind name (liftM body) : LogM ScopeId)

/-- So many entries are on top of the stack. -/
def Taller (xs : List α) (n : ℕ) (ys : List α) : Prop := xs <:+ ys ∧ ys.length = xs.length + n

namespace Taller

variable {xs ys zs : List α} {m n : ℕ} {x : α}

theorem of_eq (h : ys = xs) : Taller xs 0 ys := h ▸ ⟨List.suffix_rfl, rfl⟩

theorem eq (h : Taller xs 0 ys) : ys = xs := (h.1.eq_of_length h.2.symm).symm

theorem trans (h : Taller xs m ys) (h' : Taller ys n zs) : Taller xs (n + m) zs :=
  ⟨h.1.trans h'.1, by rw [h'.2, h.2, Nat.add_assoc, Nat.add_comm m]⟩

theorem push (h : ys = x :: xs) : Taller xs 1 ys := h ▸ ⟨List.suffix_cons _ _, rfl⟩

/-- Whatever entry is on top, the ones below are still there without it. -/
theorem pop (h : Taller xs (n + 1) ys) : ∃ y, ys.head? = some y ∧ Taller xs n ys.tail := by
  cases ys with
  | nil => cases h.2
  | cons y ys =>
    have hlength : ys.length = xs.length + n := Nat.succ.inj h.2
    refine ⟨y, rfl, ?_, hlength⟩
    rcases List.suffix_cons_iff.mp h.1 with heq | hsuffix
    · exact absurd (congrArg List.length heq) (by rw [h.2]; omega)
    · exact hsuffix

end Taller

namespace Session

variable {s t t' u : Session} {xs ys : List Construct} {c : Construct}

/-- Back in the same scope, these constructs are still open besides those that were. -/
structure Abandons (s t : Session) (xs : List Construct) : Prop where
  outer : t.outer = s.outer
  methodName : t.builder.methodName = s.builder.methodName
  rescues : t.builder.rescues = s.builder.rescues
  bodies : t.builder.ensureBodies.map EnsureFrame.bare = s.builder.ensureBodies.map EnsureFrame.bare
  loops : Taller s.builder.loops (xs.count .loop) t.builder.loops
  ensures : Taller s.builder.ensures (xs.count .ensure) t.builder.ensures
  /-- Both of these regions have a rescuer. -/
  rescuers : Taller s.builder.rescuers (xs.count .ensure + xs.count .rescue) t.builder.rescuers

namespace Abandons

theorem of_staysOpen (h : s.StaysOpen t) : s.Abandons t [] where
  outer := h.outer
  methodName := h.methodName
  rescues := h.rescues
  bodies := h.bodies
  loops := .of_eq h.loops
  ensures := .of_eq h.ensures
  rescuers := .of_eq h.rescuers

theorem staysOpen_iff (h : s.Abandons t xs) : s.StaysOpen t ↔ xs = [] := by
  constructor
  · intro hstays
    have hloops := h.loops.2
    have hensures := h.ensures.2
    have hrescuers := h.rescuers.2
    rw [hstays.loops] at hloops
    rw [hstays.ensures] at hensures
    rw [hstays.rescuers] at hrescuers
    refine List.eq_nil_iff_forall_not_mem.mpr fun c hc => ?_
    have hcount := List.count_pos_iff.mpr hc
    cases c <;> omega
  · rintro rfl
    exact ⟨⟨⟨h.rescues, h.ensures.eq, h.rescuers.eq, h.loops.eq⟩, h.bodies, h.methodName⟩, h.outer⟩

theorem trans (h : s.Abandons t xs) (h' : t.Abandons u ys) : s.Abandons u (ys ++ xs) where
  outer := h'.outer.trans h.outer
  methodName := h'.methodName.trans h.methodName
  rescues := h'.rescues.trans h.rescues
  bodies := h'.bodies.trans h.bodies
  loops := by
    rw [List.count_append]
    exact h.loops.trans h'.loops
  ensures := by
    rw [List.count_append]
    exact h.ensures.trans h'.ensures
  rescuers := by
    rw [List.count_append, List.count_append, Nat.add_add_add_comm]
    exact h.rescuers.trans h'.rescuers

theorem perm (h : s.Abandons t xs) (hperm : xs.Perm ys) : s.Abandons t ys where
  outer := h.outer
  methodName := h.methodName
  rescues := h.rescues
  bodies := h.bodies
  loops := hperm.count_eq .loop ▸ h.loops
  ensures := hperm.count_eq .ensure ▸ h.ensures
  rescuers := hperm.count_eq .ensure ▸ hperm.count_eq .rescue ▸ h.rescuers

end Abandons

section Opening

theorem abandons_pushed {frame : LoopFrame} : s.Abandons
    { s with builder := { s.builder with loops := frame :: s.builder.loops } } [.loop] where
  outer := rfl
  methodName := rfl
  rescues := rfl
  bodies := rfl
  loops := .push rfl
  ensures := .of_eq rfl
  rescuers := .of_eq rfl

theorem abandons_of_pushLoop {frame : LoopFrame} (h : s.Runs pushLoop frame t) :
    s.Abandons t [.loop] := by
  simp only [pushLoop, insertFlags, runs_bind, runs_current, runs_updateBuilder, runs_pure] at h
  obtain ⟨_, _, ⟨rfl, rfl⟩, _, s₁, hid, _, s₂, h₁, _, s₃, h₂, _, s₄, h₃, _, s₅, h₄, _, s₆, h₅, _,
    s₇, hflags, _, _, rfl, rfl, rfl⟩ := h
  have hlabel : ∀ {u u' : Session} {stem : String} {l : Label},
      u.Runs (newLabelNamed stem) l u' → u.StaysOpen u' := .of_runs stays_newLabelNamed
  have hid : s.StaysOpen s₁ := hid ▸ ⟨⟨⟨rfl, rfl, rfl, rfl⟩, rfl, rfl⟩, rfl⟩
  have hlabels := (((hlabel h₁).trans (hlabel h₂)).trans (hlabel h₃)).trans (hlabel h₄)
  have hflags : s₆.StaysOpen s₇ := hflags ▸ ⟨⟨⟨rfl, rfl, rfl, rfl⟩, rfl, rfl⟩, rfl⟩
  have hbefore := ((hid.trans hlabels).trans (.of_runs stays_temp h₅)).trans hflags
  exact (Abandons.of_staysOpen hbefore).trans abandons_pushed

theorem Abandons.popLoop {o : Option LoopFrame} (h : s.Abandons t (.loop :: xs))
    (hpop : t.Runs popLoop o u) : s.Abandons u xs := by
  simp only [Session.popLoop, runs_bind, runs_current, runs_updateBuilder, runs_pure] at hpop
  obtain ⟨_, _, ⟨rfl, rfl⟩, _, _, rfl, -, rfl⟩ := hpop
  have hloops := h.loops
  rw [List.count_cons_self] at hloops
  obtain ⟨_, -, hloops⟩ := hloops.pop
  exact ⟨h.outer, h.methodName, h.rescues, h.bodies, hloops, h.ensures, h.rescuers⟩

theorem abandons_of_pushRescuer {rescuer : Label} {v : Unit}
    (h : s.Runs (pushRescuer rescuer) v t) : s.Abandons t [.rescue] := by
  obtain rfl := runs_updateBuilder.mp h
  exact ⟨rfl, rfl, rfl, rfl, .of_eq rfl, .of_eq rfl, .push rfl⟩

theorem Abandons.popRescuer {o : Option Label} (h : s.Abandons t (.rescue :: xs))
    (hpop : t.Runs popRescuer o u) : s.Abandons u xs := by
  simp only [Session.popRescuer, runs_bind, runs_current, runs_updateBuilder, runs_pure] at hpop
  obtain ⟨_, _, ⟨rfl, rfl⟩, _, _, rfl, -, rfl⟩ := hpop
  have hrescuers := h.rescuers
  rw [List.count_cons_self, ← Nat.add_assoc] at hrescuers
  obtain ⟨_, -, hrescuers⟩ := hrescuers.pop
  exact ⟨h.outer, h.methodName, h.rescues, h.bodies, h.loops, h.ensures, hrescuers⟩

/-- The frame is pushed first and its rescuer later. -/
theorem abandons_of_pushEnsure {frame : EnsureFrame} {rescuer : Label} {v : Unit}
    (hpush : s.Runs (pushEnsure frame) v t) (h : t.StaysOpen t')
    (hrescuer : t'.Runs (pushRescuer rescuer) v u) : s.Abandons u [.ensure] := by
  obtain rfl := runs_updateBuilder.mp hpush
  obtain rfl := runs_updateBuilder.mp hrescuer
  exact ⟨h.outer, h.methodName, h.rescues, h.bodies, .of_eq h.loops, .push h.ensures,
    .push (congrArg _ h.rescuers)⟩

theorem Abandons.popEnsure {o : Option Label} {o' : Option EnsureFrame}
    (h : s.Abandons t (.ensure :: xs)) (hrescuer : t.Runs Session.popRescuer o t')
    (hpop : t'.Runs popEnsure o' u) : ∃ frame, o' = some frame ∧ s.Abandons u xs := by
  simp only [Session.popRescuer, runs_bind, runs_current, runs_updateBuilder,
    runs_pure] at hrescuer
  obtain ⟨_, _, ⟨rfl, rfl⟩, _, _, rfl, -, rfl⟩ := hrescuer
  simp only [Session.popEnsure, runs_bind, runs_current, runs_updateBuilder, runs_pure] at hpop
  obtain ⟨_, _, ⟨rfl, rfl⟩, _, _, rfl, rfl, rfl⟩ := hpop
  have hensures := h.ensures
  rw [List.count_cons_self] at hensures
  obtain ⟨frame, hhead, hensures⟩ := hensures.pop
  have hrescuers := h.rescuers
  rw [List.count_cons_self, Nat.add_right_comm] at hrescuers
  obtain ⟨_, -, hrescuers⟩ := hrescuers.pop
  exact ⟨frame, hhead, h.outer, h.methodName, h.rescues, h.bodies, h.loops, hensures, hrescuers⟩

/-- What a cleanup leaves open stays, but its own frame goes. -/
theorem Abandons.exitBody {frame : EnsureFrame} {v : Unit} {o : Option EnsureFrame}
    (henter : s.Runs (enterEnsureBody frame) v t) (h : t.Abandons t' xs)
    (hexit : t'.Runs exitEnsureBody o u) : ∃ f, o = some f ∧ s.Abandons u xs := by
  obtain rfl := runs_updateBuilder.mp henter
  simp only [exitEnsureBody, runs_bind, runs_current, runs_updateBuilder, runs_pure] at hexit
  obtain ⟨_, _, ⟨rfl, rfl⟩, _, _, rfl, rfl, rfl⟩ := hexit
  have hbodies := h.bodies
  cases hframes : t'.builder.ensureBodies with
  | nil =>
    rw [hframes] at hbodies
    cases hbodies
  | cons f frames =>
    rw [hframes] at hbodies
    exact ⟨f, rfl, h.outer, h.methodName, h.rescues, (List.cons.inj hbodies).2, h.loops, h.ensures,
      h.rescuers⟩

theorem Abandons.popRescue {frame : RescueFrame} {v : Unit} {o : Option RescueFrame}
    (hpush : s.Runs (pushRescue frame) v t) (h : t.Abandons t' xs)
    (hpop : t'.Runs popRescue o u) : s.Abandons u xs := by
  obtain rfl := runs_updateBuilder.mp hpush
  simp only [Session.popRescue, runs_bind, runs_current, runs_updateBuilder, runs_pure] at hpop
  obtain ⟨_, _, ⟨rfl, rfl⟩, _, _, rfl, -, rfl⟩ := hpop
  exact ⟨h.outer, h.methodName, congrArg List.tail h.rescues, h.bodies, h.loops, h.ensures,
    h.rescuers⟩

/-- The name of the method whose block is built is put back. -/
theorem Abandons.renamed {method : Option Symbol} (h : (s.naming method).Abandons t xs) :
    s.Abandons (t.naming s.builder.methodName) xs :=
  ⟨h.outer, rfl, h.rescues, h.bodies, h.loops, h.ensures, h.rescuers⟩

/-- Since the log was `l`, it has grown to `k` by what was left open besides the constructs that are
still at work. -/
def Leaves (s : Session) (l opened : List Construct) (t : Session) (k : List Construct) : Prop :=
  ∃ new, k = new ++ l ∧ s.Abandons t (opened ++ new)

namespace Leaves

variable {l k k' opened : List Construct}

theorem refl (s : Session) (l : List Construct) : s.Leaves l [] s l :=
  ⟨[], rfl, .of_staysOpen (.refl s)⟩

theorem trans (h : s.Leaves l opened t k) (h' : t.Leaves k [] u k') : s.Leaves l opened u k' := by
  obtain ⟨new, rfl, h⟩ := h
  obtain ⟨new', rfl, h'⟩ := h'
  refine ⟨new' ++ new, (List.append_assoc ..).symm, (h.trans h').perm ?_⟩
  exact List.perm_append_comm_assoc ..

theorem stays (h : s.Leaves l opened t k) (hstays : t.StaysOpen u) : s.Leaves l opened u k := by
  obtain ⟨new, rfl, h⟩ := h
  exact ⟨new, rfl, h.trans (.of_staysOpen hstays)⟩

theorem opens (h : s.Leaves l opened t k) (hopen : t.Abandons u [c]) :
    s.Leaves l (c :: opened) u k := by
  obtain ⟨new, rfl, h⟩ := h
  exact ⟨new, rfl, h.trans hopen⟩

/-- A construct is done, or what it kept meanwhile is back. -/
theorem closes (h : s.Leaves l opened t k)
    (hclose : ∀ {xs}, s.Abandons t (opened ++ xs) → s.Abandons u xs) : s.Leaves l [] u k := by
  obtain ⟨new, rfl, h⟩ := h
  exact ⟨new, rfl, hclose h⟩

theorem exitBody {frame : EnsureFrame} {v : Unit} {o : Option EnsureFrame}
    (henter : s.Runs (enterEnsureBody frame) v t) (h : t.Leaves l [] t' k)
    (hexit : t'.Runs exitEnsureBody o u) : ∃ f, o = some f ∧ s.Leaves l [] u k := by
  obtain ⟨new, rfl, h⟩ := h
  obtain ⟨f, hf, h⟩ := Abandons.exitBody henter h hexit
  exact ⟨f, hf, new, rfl, h⟩

theorem renamed {method : Option Symbol} (h : (s.naming method).Leaves l [] t k) :
    s.Leaves l [] (t.naming s.builder.methodName) k := by
  obtain ⟨new, rfl, h⟩ := h
  exact ⟨new, rfl, h.renamed⟩

theorem popRescue {frame : RescueFrame} {v : Unit} {o : Option RescueFrame}
    (hpush : s.Runs (pushRescue frame) v t) (h : t.Leaves l [] t' k)
    (hpop : t'.Runs Session.popRescue o u) : s.Leaves l [] u k := by
  obtain ⟨new, rfl, h⟩ := h
  exact ⟨new, rfl, .popRescue hpush h hpop⟩

theorem popEnsure {o : Option Label} {o' : Option EnsureFrame} (h : s.Leaves l [.ensure] t k)
    (hrescuer : t.Runs Session.popRescuer o t') (hpop : t'.Runs Session.popEnsure o' u) :
    ∃ frame, o' = some frame ∧ s.Leaves l [] u k := by
  obtain ⟨new, rfl, h⟩ := h
  obtain ⟨frame, hframe, h⟩ := h.popEnsure hrescuer hpop
  exact ⟨frame, hframe, new, rfl, h⟩

theorem noted (h : s.Leaves l [c] t k) : s.Leaves l [] t (c :: k) := by
  obtain ⟨new, rfl, h⟩ := h
  exact ⟨c :: new, rfl, h⟩

end Leaves

end Opening

section Uncatchable

namespace Uncatchable

theorem liftM_registry {x : RegistryM α} (hx : Registry.Uncatchable x) :
    Uncatchable (liftM x : SessionM α) := fun _ _ _ => hx.lift

theorem liftM_overflow {x : Option α} : Uncatchable (liftM (orOverflow x)) := by
  intro s e t he
  cases x <;> cases he

theorem ownScope : Uncatchable ownScope :=
  bind current fun _ => liftM_registry Registry.uncatchable_scope

theorem record {e : Event} : Uncatchable (liftM (RegistryM.record e) : SessionM Unit) :=
  fun _ _ _ he => nomatch he

theorem get : Uncatchable get := fun _ _ _ he => nomatch he

theorem nearestMethod {g : Registry} {id : ScopeId} : Uncatchable (liftM (g.nearestMethod id)) := by
  intro s e t he
  unfold Registry.nearestMethod at he
  cases hchain : g.lexicalChain id with
  | ok chain =>
    rw [hchain] at he
    cases he
  | error fault =>
    rw [hchain] at he
    obtain ⟨id', rfl⟩ := Registry.noScope_of_lexicalChain hchain
    cases he

theorem append {i : Instr} : Uncatchable (append i) :=
  bind current fun _ => bind record fun _ => updateBuilder

theorem currentModuleVar : Uncatchable currentModuleVar := by
  unfold Session.currentModuleVar
  refine bind current fun b => ?_
  split
  · exact pure
  · refine bind (liftM_registry Registry.uncatchable_nextTemp) fun _ => ?_
    exact bind updateBuilder fun _ => pure

theorem flushLine : Uncatchable flushLine := by
  unfold Session.flushLine
  refine bind current fun b => ?_
  split
  · exact pure
  refine bind updateBuilder fun _ => bind append fun _ => bind get fun s => ?_
  split
  · refine bind currentModuleVar fun _ => bind get fun _ => bind nearestMethod fun _ => ?_
    exact bind ownScope fun _ => bind liftM_overflow fun _ => append
  · exact pure

theorem emit {i : Instr} : Uncatchable (emit i) := by
  unfold Session.emit
  refine bind current fun b => ?_
  split
  · exact updateBuilder
  · exact bind flushLine fun _ => append

/-- Booleans can be tested for. -/
theorem cond_boolean {target : Label} {value : Operand} {test : Bool} :
    Uncatchable (cond target value (.boolean test)) := by
  cases test <;> exact bind pure fun _ => emit

theorem forIn (xs : List α) {f : α → SessionM (ForInStep PUnit)} (hf : ∀ a, Uncatchable (f a))
    {v : PUnit} : Uncatchable (ForIn.forIn xs v fun a _ => f a) := by
  induction xs generalizing v with
  | nil => exact pure
  | cons a xs ih =>
    rw [List.forIn_cons]
    refine bind (hf a) fun step => ?_
    cases step with
    | done => exact pure
    | yield => exact ih

theorem freshen {ρ : Renaming} {i : Instr} : Uncatchable (freshen ρ i) := by
  have hlabel : Uncatchable (freshenLabel ρ i) := by
    unfold freshenLabel
    split
    · exact bind newLabelNamed fun _ => pure
    · exact pure
  rw [freshen_eq]
  refine bind hlabel fun _ => ?_
  unfold freshenResult
  split
  · split
    · exact bind temp fun _ => pure
    · exact pure
  · exact pure

theorem foldlM_freshen {xs : List Instr} {ρ : Renaming} :
    Uncatchable (xs.foldlM Session.freshen ρ) := by
  induction xs generalizing ρ with
  | nil => exact pure
  | cons i xs ih => exact bind freshen fun _ => ih

theorem addClosure {closure : ScopeId} : Uncatchable (addClosure closure) := by
  refine bind current fun _ => liftM_registry ?_
  unfold RegistryM.addClosure RegistryM.updateScope
  exact Registry.uncatchable_bind Registry.uncatchable_scope fun _ _ _ he => nomatch he

theorem copyEnsure {frame : EnsureFrame} : Uncatchable (copyEnsure frame) := by
  unfold Session.copyEnsure
  split
  · exact pure
  refine bind newLabelNamed fun _ => bind foldlM_freshen fun _ => bind current fun _ => ?_
  refine bind record fun _ => bind emit fun _ => bind emit fun _ => ?_
  refine bind (forIn _ fun i => ?_) fun _ => emit
  dsimp only
  split
  · exact bind addClosure fun _ => bind emit fun _ => pure
  · exact bind emit fun _ => pure

/-- A stack is read and loses its last entry. -/
theorem popped {f : Builder → α} {g : Builder → Builder → Builder} : Uncatchable (do
    let b ← Session.current
    Session.updateBuilder (g b)
    return f b) := bind current fun _ => bind updateBuilder fun _ => pure

theorem newEnsure : Uncatchable newEnsure :=
  bind newLabelNamed fun _ => bind newLabelNamed fun _ => bind newLabelNamed fun _ =>
    bind newLabelNamed fun _ => bind current fun _ => pure

theorem emitEnsureBody {frame : EnsureFrame} : Uncatchable (emitEnsureBody frame) :=
  bind emit fun _ => bind (forIn _ fun _ => bind emit fun _ => pure) fun _ => pure

end Uncatchable

end Uncatchable

end Session

namespace LogM

variable {s t u : Session} {l k k' opened : List Construct} {c : Construct} {x : LogM α}
  {f : α → LogM β} {Q : α → Session → List Construct → Prop}
  {R : β → Session → List Construct → Prop} {E : Session → List Construct → Prop}

/-- Success leads to `Q`, and an error that callers may catch to `E`. -/
structure Ends (x : LogM α) (s : Session) (l : List Construct)
    (Q : α → Session → List Construct → Prop) (E : Session → List Construct → Prop) : Prop where
  result : ∀ {a t k}, x s l = ((.ok a, t), k) → Q a t k
  error : ∀ {e t k}, x s l = ((.error (.error e), t), k) → E t k

/-- What `x` leaves open is what it logs, however it ends. -/
def Accounts (x : LogM α) : Prop :=
  ∀ s l, x.Ends s l (fun _ t k => s.Leaves l [] t k) (s.Leaves l [])

namespace Ends

theorem pure {a : α} (h : Q a s l) : (Pure.pure a : LogM α).Ends s l Q E where
  result heq := by
    cases heq
    exact h
  error heq := nomatch heq

theorem throw {e : BuildError} (h : E s l) :
    (MonadExcept.throw (.error e) : LogM α).Ends s l Q E where
  result heq := nomatch heq
  error heq := by
    cases heq
    exact h

theorem bind (hx : x.Ends s l (fun a t k => (f a).Ends t k R E) E) : (x >>= f).Ends s l R E where
  result heq := by
    rw [BuildT.bind_apply] at heq
    split at heq
    · next hxa => exact (hx.result hxa).result heq
    · cases heq
  error heq := by
    rw [BuildT.bind_apply] at heq
    split at heq
    · next hxa => exact (hx.result hxa).error heq
    · next hxe =>
      cases heq
      exact hx.error hxe

theorem lift {x : SessionM α} (hx : Uncatchable x) (hQ : ∀ {a t}, s.Runs x a t → Q a t l) :
    (liftM x : LogM α).Ends s l Q E where
  result heq := by
    rw [BuildT.liftM_apply] at heq
    obtain ⟨hxa, rfl⟩ := Prod.mk.inj heq
    exact hQ hxa
  error heq := by
    rw [BuildT.liftM_apply] at heq
    exact absurd (Prod.mk.inj heq).1 (hx _ _ _)

theorem attempt {Q : Except BuildError α → Session → List Construct → Prop}
    (hx : x.Ends s l (fun a t k => Q (.ok a) t k) fun t k => ∀ e, Q (.error e) t k) :
    Ends (BuildT.attempt x) s l Q E where
  result heq := by
    rw [BuildT.attempt_apply] at heq
    split at heq
    · next hxa =>
      cases heq
      exact hx.result hxa
    · next hxe =>
      cases heq
      exact hx.error hxe _
    · cases heq
  error heq := by
    rw [BuildT.attempt_apply] at heq
    split at heq
    · cases heq
    · cases heq
    · next hnot _ =>
      cases heq
      exact (hnot _ rfl).elim

theorem settle {outcome : Except BuildError α} (hQ : ∀ a, outcome = .ok a → Q a s l) (hE : E s l) :
    Ends (BuildT.settle outcome) s l Q E := by
  cases outcome with
  | ok a => exact pure (hQ a rfl)
  | error e => exact throw hE

/-- The next operation opens and closes nothing. -/
theorem step {x : SessionM α} {f : α → LogM β} (h : s.Leaves l opened t k) (hx : Uncatchable x)
    (hstays : t.Stays x)
    (hf : ∀ {a u}, t.Runs x a u → s.Leaves l opened u k → (f a).Ends u k R E) :
    (liftM x >>= f : LogM β).Ends t k R E :=
  bind (lift hx fun hxa => hf hxa (h.stays (.of_runs hstays hxa)))

/-- However it ends, what follows is built. -/
theorem attempted {x : LogM α} {f : Except BuildError α → LogM β} (hx : x.Accounts)
    (hf : ∀ {outcome u k'}, t.Leaves k [] u k' → (f outcome).Ends u k' R E) :
    (BuildT.attempt x >>= f : LogM β).Ends t k R E :=
  bind (attempt ⟨fun heq => hf ((hx t k).result heq), fun heq _ => hf ((hx t k).error heq)⟩)

/-- What is handed to a construct comes next. -/
theorem callback {x : LogM α} {f : α → LogM β} (h : s.Leaves l [c] t k) (hx : x.Accounts)
    (hf : ∀ {a u k'}, s.Leaves l [c] u k' → (f a).Ends u k' R (s.Leaves l [])) :
    (noting c x >>= f).Ends t k R (s.Leaves l []) := by
  refine bind ⟨fun {a u k'} heq => ?_, fun {e u k'} heq => ?_⟩
  · have hxa : x t k = ((.ok a, u), k') := by
      unfold noting at heq
      simp only [ExceptT.mk] at heq
      split at heq
      · cases heq
      · exact heq
    exact hf (h.trans ((hx t k).result hxa))
  · unfold noting at heq
    simp only [ExceptT.mk] at heq
    split at heq
    · next hxe =>
      cases heq
      exact (h.trans ((hx t k).error hxe)).noted
    · next hnot => exact absurd heq (hnot _ _ _)

end Ends

section Constructs

/-- The end of a loop, whichever way it is tested. -/
theorem ends_closing {frame : LoopFrame} {setResult : Label} (h : s.Leaves l [.loop] t k) :
    Ends (do
      Session.emit (.label setResult)
      Session.emit (.copy frame.result .nil)
      Session.emit (.label frame.loopEnd)
      let _ ← popLoop
      return frame.result : LogM Operand) t k (fun _ u j => s.Leaves l [] u j) (s.Leaves l []) := by
  refine .step h .emit stays_emit fun _ h => .step h .emit stays_emit fun _ h => ?_
  refine .step h .emit stays_emit fun _ h => Ends.bind (.lift .popped fun hpop => ?_)
  exact .pure (h.closes fun h => h.popLoop hpop)

theorem accounts_loop {condition : LogM Operand} {body : LogM Unit} (goOn testFirst : Bool)
    (hcondition : condition.Accounts) (hbody : body.Accounts) :
    Accounts (BuildT.loop (noting .loop condition) (noting .loop body) goOn testFirst) := by
  intro s l
  unfold BuildT.loop
  refine Ends.bind (.lift .pushLoop fun {frame t} hpush => ?_)
  have h : s.Leaves l [.loop] t l := (Leaves.refl s l).opens (abandons_of_pushLoop hpush)
  refine .step h .newLabelNamed stays_newLabelNamed fun _ h => ?_
  refine .step h .emit stays_emit fun _ h => ?_
  cases testFirst with
  | true =>
    simp only [reduceIte]
    refine .callback h hcondition fun h => .step h .cond_boolean stays_cond fun _ h => ?_
    refine .step h .emit stays_emit fun _ h => .step h .emit stays_emit fun _ h => ?_
    refine .callback h hbody fun h => ?_
    refine .step h .emit stays_emit fun _ h => .step h .emit stays_emit fun _ h => ?_
    exact ends_closing h
  | false =>
    simp only [Bool.false_eq_true, reduceIte]
    refine .step h .emit stays_emit fun _ h => .step h .emit stays_emit fun _ h => ?_
    refine .callback h hbody fun h => .step h .emit stays_emit fun _ h => ?_
    refine .callback h hcondition fun h => .step h .cond_boolean stays_cond fun _ h => ?_
    exact ends_closing h

theorem accounts_ensure {body cleanup : LogM Operand} (hbody : body.Accounts)
    (hcleanup : cleanup.Accounts) :
    Accounts (BuildT.ensure (noting .ensure body) cleanup) := by
  intro s l
  unfold BuildT.ensure
  refine .step (.refl s l) .newEnsure made_newEnsure.stays fun _ h => ?_
  refine Ends.bind (.lift .updateBuilder fun henter => .attempted hcleanup fun hleft => ?_)
  -- its frame goes whether the cleanup succeeded or not
  refine Ends.bind (.lift .popped fun hexit => ?_)
  obtain ⟨_, rfl, hexited⟩ := Leaves.exitBody henter hleft hexit
  have h := h.trans hexited
  refine Ends.bind (.settle (fun _ _ => ?_) h)
  refine Ends.bind (.lift .updateBuilder fun hpush => ?_)
  refine Ends.bind (.lift .emit fun hlabel => Ends.bind (.lift .emit fun hstart => ?_))
  have hbefore := (StaysOpen.of_runs stays_emit hlabel).trans (.of_runs stays_emit hstart)
  refine Ends.bind (.lift .updateBuilder fun hrescuer => ?_)
  have h := h.opens (abandons_of_pushEnsure hpush hbefore hrescuer)
  refine .step h .temp stays_temp fun _ h => .callback h hbody fun h => ?_
  refine .step h .emit stays_emit fun _ h => Ends.bind (.lift .popped fun hrescuer => ?_)
  refine Ends.bind (.lift .popped fun hpop => ?_)
  obtain ⟨_, rfl, h⟩ := h.popEnsure hrescuer hpop
  refine .step h .emit stays_emit fun _ h => .step h .copyEnsure stays_copyEnsure fun _ h => ?_
  refine .step h .emit stays_emit fun _ h => .step h .temp stays_temp fun _ h => ?_
  refine .step h .emit stays_emit fun _ h => .step h .emit stays_emit fun _ h => ?_
  refine .step h .emitEnsureBody stays_emitEnsureBody fun _ h => ?_
  exact .step h .emit stays_emit fun _ h => .step h .emit stays_emit fun _ h => .pure h

theorem accounts_rescue {body : LogM Operand} {handler : Variable → LogM Operand}
    (hbody : body.Accounts) (hhandler : ∀ v, (handler v).Accounts) :
    Accounts (BuildT.rescue (noting .rescue body) handler) := by
  intro s l
  unfold BuildT.rescue
  have h := Leaves.refl s l
  refine .step h .temp stays_temp fun _ h => .step h .emit stays_emit fun _ h => ?_
  refine .step h .newLabelNamed stays_newLabelNamed fun _ h => ?_
  refine .step h .newLabelNamed stays_newLabelNamed fun _ h => ?_
  refine .step h .newLabelNamed stays_newLabelNamed fun _ h => ?_
  refine .step h .emit stays_emit fun _ h => .step h .emit stays_emit fun _ h => ?_
  refine Ends.bind (.lift .updateBuilder fun hpush => ?_)
  have h := h.opens (abandons_of_pushRescuer hpush)
  refine .step h .temp stays_temp fun _ h => .callback h hbody fun h => ?_
  refine .step h .emit stays_emit fun _ h => Ends.bind (.lift .popped fun hpop => ?_)
  have h := h.closes fun h => h.popRescuer hpop
  refine .step h .emit stays_emit fun _ h => .step h .emit stays_emit fun _ h => ?_
  refine .step h .emit stays_emit fun _ h => .step h .temp stays_temp fun {exception _} _ h => ?_
  refine .step h .emit stays_emit fun _ h => Ends.bind (.lift .updateBuilder fun hpush => ?_)
  refine .attempted (hhandler exception) fun hleft => Ends.bind (.lift .popped fun hpop => ?_)
  have h := h.trans (hleft.popRescue hpush hpop)
  refine Ends.bind (.settle (fun _ _ => ?_) h)
  refine .step h .emit stays_emit fun _ h => .step h .emit stays_emit fun _ h => .pure h

end Constructs

section Scopes

theorem Accounts.bind {x : LogM α} {f : α → LogM β} (hx : x.Accounts) (hf : ∀ a, (f a).Accounts) :
    (x >>= f).Accounts := fun s l => .bind
  ⟨fun heq => ⟨fun hfb => ((hx s l).result heq).trans ((hf _ _ _).result hfb),
    fun hfe => ((hx s l).result heq).trans ((hf _ _ _).error hfe)⟩, (hx s l).error⟩

theorem accounts_liftM {x : SessionM α} (hx : ∀ s : Session, s.Stays x) :
    (liftM x : LogM α).Accounts := by
  intro s l
  have hleaves : s.Leaves l [] (x s).2 l := (Leaves.refl s l).stays (hx s)
  constructor
  all_goals
    intro _ t k heq
    rw [BuildT.liftM_apply] at heq
    obtain ⟨hr, rfl⟩ := Prod.mk.inj heq
    rwa [hr] at hleaves

/-- The log of the scope at work is not written to. -/
def Quiet (x : LogM α) : Prop := ∀ s l, (x s l).2 = l

theorem quiet_liftM {x : SessionM α} : Quiet (liftM x : LogM α) := fun _ _ => rfl

theorem Quiet.bind {x : LogM α} {f : α → LogM β} (hx : Quiet x) (hf : ∀ a, Quiet (f a)) :
    Quiet (x >>= f) := by
  intro s l
  have hlog := hx s l
  rw [BuildT.bind_apply]
  split
  · next hxa =>
    rw [hxa] at hlog
    exact (hf _ _ _).trans hlog
  · next hxe =>
    rw [hxe] at hlog
    exact hlog

/-- However it ends, the builder around is at work again and was not touched. -/
theorem accounts_within {child : Builder} {x : LogM α} (hx : Quiet x) :
    Accounts (BuildT.within child x) := by
  intro s l
  constructor
  all_goals
    intro _ t k heq
    rw [BuildT.within_apply] at heq
    have hlog := hx { s with builder := child, outer := s.builder :: s.outer } l
    obtain ⟨hr, rfl⟩ := Prod.mk.inj heq
    obtain ⟨-, rfl⟩ := Prod.mk.inj hr
    rw [hlog]
    exact (Leaves.refl s l).stays ⟨.refl _, rfl⟩

theorem accounts_child {kind : ScopeKind} {name : Symbol} {methodName : Option Symbol}
    {body : SessionM Unit} :
    Accounts (BuildT.child kind name methodName (liftM body)) := by
  unfold BuildT.child BuildT.inScope
  refine .bind (accounts_liftM fun _ => stays_current) fun _ => ?_
  refine .bind (accounts_liftM fun _ => stays_ownScope) fun _ => ?_
  refine .bind (accounts_liftM fun _ => stays_liftM) fun _ => ?_
  refine .bind (accounts_liftM fun _ => stays_current) fun _ => ?_
  refine .bind (accounts_liftM fun _ => stays_liftM) fun _ => accounts_within ?_
  have hbody : Quiet (do
      let _ ← liftM body
      finish : LogM ScopeId) := quiet_liftM.bind fun _ => quiet_liftM
  refine quiet_liftM.bind fun _ => ?_
  split
  · exact quiet_liftM.bind fun _ => hbody
  · exact hbody

theorem accounts_block {method : Symbol} {body : SessionM Unit} :
    Accounts (BuildT.block method (liftM body)) := by
  intro s l
  unfold BuildT.block
  refine Ends.bind (.lift .current fun hcurrent => ?_)
  obtain ⟨rfl, rfl⟩ := runs_current.mp hcurrent
  refine Ends.bind (.lift .updateBuilder fun hname => ?_)
  obtain rfl := runs_updateBuilder.mp hname
  refine .attempted accounts_child fun hleft => ?_
  refine Ends.bind (.lift .updateBuilder fun hrename => ?_)
  obtain rfl := runs_updateBuilder.mp hrename
  have h := hleft.renamed
  exact Ends.bind (.settle (fun _ _ => .pure h) h)

end Scopes

theorem accounts_of_callback {x : LogM α} (hx : Callback x) : x.Accounts := by
  induction hx with
  | pure => exact fun s l => .pure (.refl s l)
  | throw => exact fun s l => .throw (.refl s l)
  | bind _ _ hx hf => exact hx.bind hf
  | operation hstays => exact accounts_liftM hstays
  | attempt _ hx =>
    exact fun s l => .attempt ⟨fun heq => (hx s l).result heq, fun heq _ => (hx s l).error heq⟩
  | loop goOn testFirst _ _ hcondition hbody => exact accounts_loop goOn testFirst hcondition hbody
  | ensure _ _ hbody hcleanup => exact accounts_ensure hbody hcleanup
  | rescue _ _ hbody hhandler => exact accounts_rescue hbody hhandler
  | block => exact accounts_block
  | nested => exact accounts_child

end LogM

/-- A caller that goes on after an action, catching the error it may end in, has these constructs open
besides its own: one for each failure that was logged, which does not count those in nested scopes. So
it finds everything as it was before just if no body failed whose construct does not unwind. -/
theorem abandons_of_attempt {x : LogM α} {s t : Session} {l k : List Construct}
    {outcome : Except BuildError α} (hx : Callback x)
    (h : BuildT.attempt x s l = ((.ok outcome, t), k)) :
    ∃ new, k = new ++ l ∧ s.Abandons t new ∧ (s.StaysOpen t ↔ new = []) := by
  obtain ⟨new, rfl, habandons⟩ := (accounts_of_callback hx.attempt s l).result h
  exact ⟨new, rfl, habandons, habandons.staysOpen_iff⟩

/-- The body of this loop retries what nobody rescues. -/
def LogM.retryInLoop : LogM Operand :=
  BuildT.loop (noting .loop (pure (.boolean true))) (noting .loop Session.retry) true true

theorem abandons_of_attempt_retryInLoop : ∃ outcome t, Callback retryInLoop ∧
    BuildT.attempt retryInLoop (single .method) [] = ((.ok outcome, t), [.loop]) ∧
    ∃ new, [Construct.loop] = new ++ [] ∧ (single .method).Abandons t new ∧
      ((single .method).StaysOpen t ↔ new = []) := by
  have hx : Callback retryInLoop := .loop true true (.pure _) (.operation fun _ =>
    (made_retry lenient_true fun _ => trivial).stays)
  have h : BuildT.attempt retryInLoop (single .method) [] = ((.ok (.error _), _), [.loop]) := rfl
  exact ⟨_, _, hx, h, abandons_of_attempt hx h⟩

end ScopeIR
