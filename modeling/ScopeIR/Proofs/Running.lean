import ScopeIR.Proofs.Code

/-! Building that succeeds. A run of a sequence splits into runs of its parts. -/

namespace ScopeIR

variable {α β : Type}

/-- The change succeeds with `a` and leaves `g'`. -/
def Registry.Runs (g : Registry) (x : RegistryM α) (a : α) (g' : Registry) : Prop :=
  x g = .ok (a, g')

/-- The action succeeds with `a` and leaves `t`. -/
def Session.Runs (s : Session) (x : SessionM α) (a : α) (t : Session) : Prop :=
  x s = (.ok a, t)

/-- The action succeeds with `a`, leaves `t` and has the trail grow from `h` to `k`. -/
def TrailM.Runs (x : TrailM α) (s : Session) (h : Trail) (a : α) (t : Session) (k : Trail) :
    Prop :=
  x s h = ((.ok a, t), k)

namespace Registry

variable {g g' : Registry} {a : α} {b : β}

@[simp] theorem runs_pure {a b : α} : g.Runs (pure b) a g' ↔ a = b ∧ g = g' := by
  change (Except.ok (b, g) : Except Fault (α × Registry)) = .ok (a, g') ↔ _
  simp only [Except.ok.injEq, Prod.mk.injEq, eq_comm]

@[simp] theorem runs_bind {x : RegistryM α} {f : α → RegistryM β} :
    g.Runs (x >>= f) b g' ↔ ∃ a g₁, g.Runs x a g₁ ∧ g₁.Runs (f a) b g' := by
  simp only [Runs, bind, StateT.bind, Except.bind]
  cases hx : x g with
  | error e => simp only [reduceCtorEq, false_and, exists_false]
  | ok p => simp only [Except.ok.injEq, Prod.ext_iff, exists_and_left, and_assoc,
      exists_eq_left']

@[simp] theorem runs_get {a : Registry} : g.Runs get a g' ↔ a = g ∧ g = g' := runs_pure

@[simp] theorem runs_modify {f : Registry → Registry} {u : Unit} :
    g.Runs (modify f) u g' ↔ g' = f g := by
  change (Except.ok ((), f g) : Except Fault (Unit × Registry)) = .ok (u, g') ↔ _
  simp only [Except.ok.injEq, Prod.mk.injEq, true_and, eq_comm]

@[simp] theorem runs_liftM {x : Except Fault α} :
    g.Runs (liftM x) a g' ↔ x = .ok a ∧ g = g' := by
  cases x with
  | error e => exact ⟨fun h => (nomatch h), fun h => (nomatch h.1)⟩
  | ok b =>
    change g.Runs (pure b) a g' ↔ _
    rw [runs_pure, Except.ok.injEq, eq_comm (a := a)]

@[simp] theorem not_runs_throw {e : Fault} : ¬ g.Runs (throw e : RegistryM α) a g' :=
  fun h => nomatch h

end Registry

namespace Session

variable {s t u : Session} {a : α} {b : β}

theorem runs_of_ok {x : SessionM α} (h : (x s).1 = .ok a) : s.Runs x a (x s).2 := Prod.ext h rfl

@[simp] theorem runs_pure {a b : α} : s.Runs (pure b) a t ↔ a = b ∧ s = t := by
  constructor
  · intro h
    cases h
    exact ⟨rfl, rfl⟩
  · rintro ⟨rfl, rfl⟩
    rfl

theorem bind_apply (x : SessionM α) (f : α → SessionM β) (s : Session) :
    (x >>= f) s = match x s with
      | (.ok a, t) => f a t
      | (.error e, t) => (.error e, t) := by
  simp only [bind, ExceptT.bind, ExceptT.mk, StateT.bind]
  rcases x s with ⟨_ | a, t⟩ <;> rfl

@[simp] theorem runs_bind {x : SessionM α} {f : α → SessionM β} :
    s.Runs (x >>= f) b u ↔ ∃ a t, s.Runs x a t ∧ t.Runs (f a) b u := by
  simp only [Runs, bind_apply]
  rcases x s with ⟨_ | a, t⟩
  · exact ⟨fun h => (nomatch h), fun ⟨_, _, h, _⟩ => (nomatch h)⟩
  · constructor
    · intro h
      exact ⟨a, t, rfl, h⟩
    · rintro ⟨_, _, h, hf⟩
      cases h
      exact hf

@[simp] theorem runs_get {a : Session} : s.Runs get a t ↔ a = s ∧ s = t := runs_pure

@[simp] theorem runs_modify {f : Session → Session} {v : Unit} :
    s.Runs (modify f) v t ↔ t = f s := by
  constructor
  · intro h
    cases h
    rfl
  · rintro rfl
    rfl

@[simp] theorem runs_current {a : Builder} : s.Runs current a t ↔ a = s.builder ∧ s = t := by
  simp only [current, runs_bind, runs_get, runs_pure]
  constructor
  · rintro ⟨_, _, ⟨rfl, rfl⟩, rfl, rfl⟩
    exact ⟨rfl, rfl⟩
  · rintro ⟨rfl, rfl⟩
    exact ⟨_, _, ⟨rfl, rfl⟩, rfl, rfl⟩

@[simp] theorem runs_updateBuilder {f : Builder → Builder} {v : Unit} :
    s.Runs (updateBuilder f) v t ↔ t = { s with builder := f s.builder } := runs_modify

@[simp] theorem runs_liftM_except {x : Except Fault α} :
    s.Runs (liftM x) a t ↔ x = .ok a ∧ s = t := by
  cases x with
  | error e => exact ⟨fun h => (nomatch h), fun h => (nomatch h.1)⟩
  | ok b =>
    change s.Runs (pure b) a t ↔ _
    rw [runs_pure, Except.ok.injEq, eq_comm (a := a)]

theorem liftM_apply (x : RegistryM α) (s : Session) :
    (liftM x : SessionM α) s = match x s.registry with
      | .ok (a, registry) => (.ok a, { s with registry })
      | .error e => (.error e, s) := rfl

@[simp] theorem runs_liftM {x : RegistryM α} :
    s.Runs (liftM x) a t ↔ ∃ g, s.registry.Runs x a g ∧ t = { s with registry := g } := by
  simp only [Runs, Registry.Runs, liftM_apply]
  rcases x s.registry with e | ⟨b, g⟩
  · constructor
    · intro h
      cases h
    · rintro ⟨_, h, _⟩
      cases h
  · constructor
    · intro h
      cases h
      exact ⟨g, rfl, rfl⟩
    · rintro ⟨_, h, rfl⟩
      cases h
      rfl

@[simp] theorem not_runs_throw {e : Fault} : ¬ s.Runs (throw e : SessionM α) a t :=
  fun h => nomatch h

theorem attempt_apply (x : SessionM α) (s : Session) :
    (BuildT.attempt x : SessionM (Except BuildError α)) s = match x s with
      | (.ok a, t) => (.ok (.ok a), t)
      | (.error (.error e), t) => (.ok (.error e), t)
      | (.error fault, t) => (.error fault, t) := by
  have hbind : ∀ {β γ : Type} (y : StateT Session Id β) (f : β → StateT Session Id γ),
      (y >>= f) s = f (y s).1 (y s).2 := fun _ _ => rfl
  simp only [BuildT.attempt, ExceptT.mk, ExceptT.run]
  rw [hbind]
  rcases x s with ⟨(_ | _ | _ | _) | a, t⟩ <;> rfl

/-- Lifting from sessions to sessions does nothing. -/
theorem liftM_self (x : SessionM α) : @liftM SessionM SessionM
    (@instMonadLiftTOfMonadLift _ _ _ (@instMonadLiftSessionMBuildTOfMonad Id _) _) α x = x := (rfl)

end Session

namespace BuildT

variable {σ : Type}

theorem liftM_apply (x : SessionM α) (s : Session) (h : σ) :
    (liftM x : BuildT (StateM σ) α) s h = (x s, h) := rfl

theorem bind_apply (x : BuildT (StateM σ) α) (f : α → BuildT (StateM σ) β) (s : Session) (h : σ) :
    (x >>= f) s h = match x s h with
      | ((.ok a, t), k) => f a t k
      | ((.error e, t), k) => ((.error e, t), k) := by
  simp only [bind, ExceptT.bind, ExceptT.mk, StateT.bind]
  rcases x s h with ⟨⟨_ | a, t⟩, k⟩ <;> rfl

theorem attempt_apply (x : BuildT (StateM σ) α) (s : Session) (h : σ) :
    (attempt x : BuildT (StateM σ) (Except BuildError α)) s h = match x s h with
      | ((.ok a, t), k) => ((.ok (.ok a), t), k)
      | ((.error (.error e), t), k) => ((.ok (.error e), t), k)
      | ((.error fault, t), k) => ((.error fault, t), k) := by
  have hbind : ∀ {β γ : Type} (y : StateT Session (StateM σ) β)
      (f : β → StateT Session (StateM σ) γ),
      (y >>= f) s h = f (y s h).1.1 (y s h).1.2 (y s h).2 := fun _ _ => rfl
  simp only [attempt, ExceptT.mk, ExceptT.run]
  rw [hbind]
  rcases x s h with ⟨⟨(_ | _ | _ | _) | a, t⟩, k⟩ <;> rfl

theorem within_apply (child : Builder) (x : BuildT (StateM σ) α) (s : Session) (h : σ) :
    (within child x : BuildT (StateM σ) α) s h =
      match x { s with builder := child, outer := s.builder :: s.outer } h with
      | ((r, t), k) => ((r, { t with builder := s.builder, outer := s.outer }), k) := rfl

end BuildT

namespace TrailM

variable {s t u : Session} {h k l : Trail} {a : α} {b : β}

theorem runs_of_ok {x : TrailM α} (hr : (x s h).1.1 = .ok a) :
    Runs x s h a (x s h).1.2 (x s h).2 := Prod.ext (Prod.ext hr rfl) rfl

@[simp] theorem runs_pure {a b : α} : Runs (pure b) s h a t k ↔ a = b ∧ s = t ∧ h = k := by
  constructor
  · intro hr
    cases hr
    exact ⟨rfl, rfl, rfl⟩
  · rintro ⟨rfl, rfl, rfl⟩
    rfl

@[simp] theorem runs_bind {x : TrailM α} {f : α → TrailM β} :
    Runs (x >>= f) s h b u l ↔ ∃ a t k, Runs x s h a t k ∧ Runs (f a) t k b u l := by
  simp only [Runs, BuildT.bind_apply]
  rcases x s h with ⟨⟨_ | a, t⟩, k⟩
  · exact ⟨fun hr => (nomatch hr), fun ⟨_, _, _, hr, _⟩ => (nomatch hr)⟩
  · constructor
    · intro hr
      exact ⟨a, t, k, rfl, hr⟩
    · rintro ⟨_, _, _, hr, hf⟩
      cases hr
      exact hf

theorem liftM_bind (x : SessionM α) (f : α → SessionM β) :
    (liftM (x >>= f) : TrailM β) = liftM x >>= fun a => liftM (f a) := by
  funext s h
  rw [BuildT.bind_apply, BuildT.liftM_apply, BuildT.liftM_apply, Session.bind_apply]
  rcases x s with ⟨_ | a, t⟩ <;> rfl

@[simp] theorem runs_liftM {x : SessionM α} :
    Runs (liftM x) s h a t k ↔ s.Runs x a t ∧ h = k := by
  change ((x s, h) = ((Except.ok a, t), k)) ↔ _
  simp only [Session.Runs]
  constructor
  · intro hr
    exact ⟨congrArg Prod.fst hr, congrArg Prod.snd hr⟩
  · rintro ⟨hr, rfl⟩
    rw [hr]

@[simp] theorem runs_trail {a : Trail} : Runs trail s h a t k ↔ a = h ∧ s = t ∧ h = k := by
  constructor
  · intro hr
    cases hr
    exact ⟨rfl, rfl, rfl⟩
  · rintro ⟨rfl, rfl, rfl⟩
    rfl

@[simp] theorem runs_setHanded {labels : List Label} {v : Unit} :
    Runs (setHanded labels) s h v t k ↔ t = s ∧ k = { h with handed := labels } := by
  constructor
  · intro hr
    cases hr
    exact ⟨rfl, rfl⟩
  · rintro ⟨rfl, rfl⟩
    rfl

@[simp] theorem runs_hand {label : Label} {v : Unit} :
    Runs (hand label) s h v t k ↔ t = s ∧ k = h.handing label :=
  runs_setHanded

@[simp] theorem runs_mark {place : Nesting} {v : Unit} :
    Runs (mark place) s h v t k ↔ t = s ∧ k = { h with points := (place, s) :: h.points } := by
  constructor
  · intro hr
    cases hr
    exact ⟨rfl, rfl⟩
  · rintro ⟨rfl, rfl⟩
    rfl

end TrailM

end ScopeIR
