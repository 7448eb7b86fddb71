import ScopeIR.Proofs.Emission

/-! What building along a trail leads to: how it ends when it succeeds, and which sessions are noted
down on the way, whether it succeeds or not. One rule for each way to put actions together. -/

namespace ScopeIR.TrailM

variable {α β : Type} {s t : Session} {h : Trail} {I : Nesting × Session → Prop}

/-- Success ends as `Q` says, and the sessions noted down are as `I` says. -/
structure Yields (x : TrailM α) (s : Session) (h : Trail) (I : Nesting × Session → Prop)
    (Q : α → Session → Trail → Prop) : Prop where
  result : ∀ {a t k}, Runs x s h a t k → Q a t k
  points : ∀ p ∈ (x s h).2.points, p ∈ h.points ∨ I p

/-- Success adds a list to the one at work and ends as `Q` says. -/
def Builds (x : TrailM α) (s : Session) (h : Trail) (I : Nesting × Session → Prop)
    (Q : α → Session → Trail → List Instr → Prop) : Prop :=
  x.Yields s h I fun a t k => ∃ xs, s.Emits t xs ∧ Q a t k xs

/-- Changes of the registry are lifted through sessions. -/
theorem liftM_registry (x : RegistryM α) :
    (liftM x : TrailM α) = liftM (liftM x : SessionM α) := rfl

namespace Yields

variable {Q Q' : α → Session → Trail → Prop} {R : β → Session → Trail → Prop}

theorem mono {x : TrailM α} (hx : x.Yields s h I Q) (hQ : ∀ {a t k}, Q a t k → Q' a t k) :
    x.Yields s h I Q' := ⟨fun hr => hQ (hx.result hr), hx.points⟩

theorem pure {a : α} (hQ : Q a s h) : (Pure.pure a : TrailM α).Yields s h I Q where
  result hr := by
    obtain ⟨rfl, rfl, rfl⟩ := runs_pure.mp hr
    exact hQ
  points _ hp := .inl hp

theorem throw {e : Fault} : (MonadExcept.throw e : TrailM α).Yields s h I Q where
  result hr := nomatch hr
  points _ hp := .inl hp

theorem bind {x : TrailM α} {f : α → TrailM β}
    (hx : x.Yields s h I fun a t k => (f a).Yields t k I R) : (x >>= f).Yields s h I R where
  result hr := by
    obtain ⟨a, t, k, hxa, hfb⟩ := runs_bind.mp hr
    exact (hx.result hxa).result hfb
  points p hp := by
    rw [BuildT.bind_apply] at hp
    have hpoints := hx.points p
    rcases hxa : x s h with ⟨⟨e | a, t⟩, k⟩
    · simp only [hxa] at hp hpoints
      exact hpoints hp
    · simp only [hxa] at hp hpoints
      rcases (hx.result hxa).points p hp with hk | hI
      · exact hpoints hk
      · exact .inr hI

theorem lift {x : SessionM α} (hx : ∀ {a t}, s.Runs x a t → Q a t h) :
    (liftM x : TrailM α).Yields s h I Q where
  result hr := by
    obtain ⟨hxa, rfl⟩ := runs_liftM.mp hr
    exact hx hxa
  points _ hp := .inl hp

theorem lift_bind {x : SessionM α} {f : α → TrailM β}
    (hx : ∀ {a t}, s.Runs x a t → (f a).Yields t h I R) :
    (liftM x >>= f : TrailM β).Yields s h I R := bind (lift hx)

theorem trail_bind {f : Trail → TrailM β} (hf : (f h).Yields s h I R) :
    Yields (trail >>= f) s h I R := by
  refine bind ⟨?_, fun _ hp => .inl hp⟩
  intro a t k hr
  obtain ⟨rfl, rfl, rfl⟩ := runs_trail.mp hr
  exact hf

theorem setHanded {labels : List Label} {Q : Unit → Session → Trail → Prop}
    (hQ : Q () s { h with handed := labels }) : (TrailM.setHanded labels).Yields s h I Q where
  result hr := by
    obtain ⟨rfl, rfl⟩ := runs_setHanded.mp hr
    exact hQ
  points _ hp := .inl hp

theorem setHanded_bind {labels : List Label} {f : Unit → TrailM β}
    (hf : (f ()).Yields s { h with handed := labels } I R) :
    Yields (TrailM.setHanded labels >>= f) s h I R := bind (setHanded hf)

theorem hand_bind {label : Label} {f : Unit → TrailM β}
    (hf : (f ()).Yields s (h.handing label) I R) :
    Yields (hand label >>= f) s h I R := by
  refine bind ⟨?_, fun _ hp => .inl hp⟩
  intro a t k hr
  obtain ⟨rfl, rfl⟩ := runs_hand.mp hr
  exact hf

theorem mark {place : Nesting} {Q : Unit → Session → Trail → Prop} (hI : I (place, s))
    (hQ : Q () s { h with points := (place, s) :: h.points }) :
    (TrailM.mark place).Yields s h I Q where
  result hr := by
    obtain ⟨rfl, rfl⟩ := runs_mark.mp hr
    exact hQ
  points p hp := by
    rcases List.mem_cons.mp hp with rfl | hp
    · exact .inr hI
    · exact .inl hp

/-- What follows an attempt learns about errors, but cannot be reached by other faults. -/
theorem attempt_bind {x : TrailM α} {f : Except BuildError α → TrailM β}
    (hx : x.Yields s h I fun a t k => (f (.ok a)).Yields t k I R)
    (herror : ∀ e t k, (f (.error e)).Yields t k I R) :
    Yields (BuildT.attempt x >>= f) s h I R := by
  refine bind ⟨?_, ?_⟩
  · intro r t k hr
    have hresult := @hx.result
    rw [Runs, BuildT.attempt_apply] at hr
    unfold Runs at hresult
    rcases hxa : x s h with ⟨⟨e | a, t'⟩, k'⟩
    · rw [hxa] at hr
      cases e <;> cases hr
      exact herror _ _ _
    · rw [hxa] at hr
      cases hr
      exact hresult hxa
  · intro p hp
    have hpoints := hx.points p
    rw [BuildT.attempt_apply] at hp
    rcases hxa : x s h with ⟨⟨e | a, t⟩, k⟩
    · rw [hxa] at hp hpoints
      cases e <;> exact hpoints hp
    · rw [hxa] at hp hpoints
      exact hpoints hp

theorem within {child : Builder} {x : TrailM α}
    (hx : x.Yields { s with builder := child, outer := s.builder :: s.outer } h I fun a t k =>
      Q a { t with builder := s.builder, outer := s.outer } k) :
    Yields (BuildT.within child x) s h I Q where
  result hr := by
    have hresult := @hx.result
    unfold Runs at hr hresult
    rw [BuildT.within_apply] at hr
    rcases hxa : x { s with builder := child, outer := s.builder :: s.outer } h with ⟨⟨r, t⟩, k⟩
    rw [hxa] at hr
    cases hr
    exact hresult hxa
  points p hp := hx.points p (by rwa [BuildT.within_apply] at hp)

end Yields

namespace Builds

variable {Q Q' : α → Session → Trail → List Instr → Prop}
  {R : β → Session → Trail → List Instr → Prop} {xs : List Instr}

theorem mono {x : TrailM α} (hx : x.Builds s h I Q)
    (hQ : ∀ {a t k xs}, s.Emits t xs → Q a t k xs → Q' a t k xs) : x.Builds s h I Q' :=
  Yields.mono hx fun ⟨xs, hxs, hq⟩ => ⟨xs, hxs, hQ hxs hq⟩

theorem pure {a : α} (hQ : Q a s h []) : (Pure.pure a : TrailM α).Builds s h I Q :=
  Yields.pure ⟨[], .refl s, hQ⟩

theorem lift {x : SessionM α} (hx : ∀ {a t}, s.Runs x a t → ∃ xs, s.Emits t xs ∧ Q a t h xs) :
    (liftM x : TrailM α).Builds s h I Q := Yields.lift hx

theorem bind {x : TrailM α} {f : α → TrailM β}
    (hx : x.Builds s h I fun a t k xs => (f a).Builds t k I fun b u l ys => R b u l (xs ++ ys)) :
    (x >>= f).Builds s h I R := by
  refine Yields.bind (Yields.mono hx fun ⟨xs, hxs, hf⟩ => Yields.mono hf fun ⟨ys, hys, hR⟩ => ?_)
  exact ⟨xs ++ ys, hxs.trans hys, hR⟩

theorem andThen {x : TrailM α} {f : α → TrailM β} {T : β → Session → Trail → Prop}
    (hx : x.Builds s h I Q)
    (hf : ∀ {a t k xs}, s.Emits t xs → Q a t k xs → (f a).Yields t k I T) :
    Yields (x >>= f) s h I T :=
  Yields.bind (Yields.mono hx fun ⟨_, hxs, hq⟩ => hf hxs hq)

end Builds

/-- A value that is named after an action does not matter to what the action builds. -/
theorem builds_value {x : TrailM Unit} {value : Operand}
    {Q : Operand → Session → Trail → List Instr → Prop}
    (hx : x.Builds s h I fun _ t k xs => Q value t k xs) :
    (do x; return value : TrailM Operand).Builds s h I Q :=
  Builds.andThen hx fun hxs hq => Yields.pure ⟨_, hxs, hq⟩

end ScopeIR.TrailM
