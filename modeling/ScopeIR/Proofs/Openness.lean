import ScopeIR.Proofs.Redirection

/-! Single operations open and close nothing, but for those that push and pop. That holds whether they
succeed or not. -/

namespace ScopeIR

/-- The frame without what its body holds. -/
def EnsureFrame.bare (frame : EnsureFrame) : EnsureFrame := { frame with instrs := [] }

/-- The same constructs are open, and the same method's block is being built. Bodies of ensures may
hold more. -/
structure Builder.SameOpen (b c : Builder) : Prop extends b.SameStacks c where
  bodies : c.ensureBodies.map EnsureFrame.bare = b.ensureBodies.map EnsureFrame.bare
  methodName : c.methodName = b.methodName

theorem Builder.SameOpen.refl (b : Builder) : b.SameOpen b := ⟨.refl b, rfl, rfl⟩

theorem Builder.SameOpen.trans {b c d : Builder} (h : b.SameOpen c) (h' : c.SameOpen d) :
    b.SameOpen d :=
  ⟨h.toSameStacks.trans h'.toSameStacks, h'.bodies.trans h.bodies,
    h'.methodName.trans h.methodName⟩

namespace Session

variable {α β : Type} {s t u : Session} {i : Instr} {value test : Operand} {frame : EnsureFrame}

/-- The same builders are there, and in the one at work the same constructs are open. -/
structure StaysOpen (s t : Session) : Prop extends s.builder.SameOpen t.builder where
  outer : t.outer = s.outer

theorem StaysOpen.refl (s : Session) : s.StaysOpen s := ⟨.refl _, rfl⟩

theorem StaysOpen.trans (h : s.StaysOpen t) (h' : t.StaysOpen u) : s.StaysOpen u :=
  ⟨h.toSameOpen.trans h'.toSameOpen, h'.outer.trans h.outer⟩

/-- However the action ends, it opens and closes nothing. -/
abbrev Stays (s : Session) (x : SessionM α) : Prop := s.StaysOpen (x s).2

theorem stays_bind {x : SessionM α} {f : α → SessionM β} (hx : s.Stays x)
    (hf : ∀ {a t}, s.Runs x a t → t.Stays (f a)) : s.Stays (x >>= f) :=
  leads_bind (fun h _ h' => h.trans h') hx hf

theorem StaysOpen.of_runs {x : SessionM α} {a : α} (hx : s.Stays x) (h : s.Runs x a t) :
    s.StaysOpen t := by
  rwa [Stays, h] at hx

theorem stays_current : s.Stays current := .refl s

/-- Registries know nothing of what is open. -/
theorem stays_liftM {x : RegistryM α} : s.Stays (liftM x) := by
  unfold Stays
  rw [liftM_apply]
  split
  · exact ⟨.refl _, rfl⟩
  · exact .refl s

/-- A change of the builder that concerns none of what is open. -/
theorem stays_rearranging {f : Builder → Builder} (hrescues : (f s.builder).rescues = s.builder.rescues)
    (hensures : (f s.builder).ensures = s.builder.ensures)
    (hrescuers : (f s.builder).rescuers = s.builder.rescuers)
    (hloops : (f s.builder).loops = s.builder.loops)
    (hbodies : (f s.builder).ensureBodies = s.builder.ensureBodies)
    (hname : (f s.builder).methodName = s.builder.methodName) : s.Stays (updateBuilder f) :=
  ⟨⟨⟨hrescues, hensures, hrescuers, hloops⟩, congrArg _ hbodies, hname⟩, rfl⟩

theorem Touch.staysOpen {P Q : Instr → Prop} {F : ScopeFlags → Prop} (h : s.Touch P Q F t) :
    s.StaysOpen t := by
  cases h with
  | label | temp | closure | record | append | prepend | flags | note =>
    exact ⟨⟨⟨rfl, rfl, rfl, rfl⟩, rfl, rfl⟩, rfl⟩
  | fill hframes => exact ⟨⟨⟨rfl, rfl, rfl, rfl⟩, by rw [hframes]; rfl, rfl⟩, rfl⟩

theorem Touches.staysOpen
    (h : s.Touches (fun _ => True) (fun _ => True) (fun _ => True) t) : s.StaysOpen t := by
  induction h with
  | refl => exact .refl s
  | tail _ hstep ih => exact ih.trans hstep.staysOpen

/-- Basic actions open and close nothing. -/
theorem Made.stays {x : SessionM α}
    (h : s.Made (fun _ => True) (fun _ => True) (fun _ => True) x) : s.Stays x :=
  (h.touches fun _ => trivial).staysOpen

theorem stays_ownScope : s.Stays ownScope := stays_bind stays_current fun _ => stays_liftM

theorem stays_newLabelNamed {stem : String} : s.Stays (newLabelNamed stem) :=
  Made.newLabelNamed.stays

theorem stays_temp : s.Stays temp := Made.temp.stays

theorem stays_emit : s.Stays (emit i) := (Made.emit trivial).stays

theorem stays_cond {target : Label} : s.Stays (cond target value test) :=
  (made_cond lenient_true).stays

theorem stays_copyEnsure : s.Stays (copyEnsure frame) :=
  (made_copyEnsure lenient_true fun _ _ => trivial).stays

theorem stays_emitEnsureBody : s.Stays (emitEnsureBody frame) :=
  (made_emitEnsureBody lenient_true fun _ _ => trivial).stays

end Session

/-- Pushes or pops what is open, or names the method whose block is being built. -/
def Act.isOpening : Act → Bool
  | pushRescue _ | popRescue | pushRescuer _ | popRescuer | pushLoop | popLoop | pushEnsure _
  | popEnsure | enterEnsureBody _ | exitEnsureBody | setMethodName _ => true
  | _ => false

open Session in
theorem Act.stays {a : Act} (h : a.isOpening = false) (s : Session) : s.Stays a.run := by
  cases a with
  | note | setCoverage | setEvalType => exact stays_rearranging rfl rfl rfl rfl rfl rfl
  | emitAtBeginning => exact (touching_emitAtBeginning trivial).staysOpen
  -- what is left either opens something or is made of basic actions
  | _ => first | exact (made lenient_true within_true rfl).stays | cases h

end ScopeIR
