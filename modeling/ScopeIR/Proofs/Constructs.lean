import ScopeIR.Proofs.Copies
import ScopeIR.Proofs.Rules

/-! What each construct builds around its parts. -/

namespace ScopeIR

/-- The frame once its body is built. -/
def EnsureFrame.filled (frame : EnsureFrame) (xs : List Instr) : EnsureFrame :=
  { frame with instrs := xs }

namespace Session

variable {s t u : Session}

section Stacks

theorem runs_pop {β : Type} (stack : Builder → List β) (set : List β → Builder → Builder)
    {a : Option β} :
    s.Runs (do
      let frames := stack (← current)
      updateBuilder fun b => set frames.tail b
      return frames.head?) a t ↔
    a = (stack s.builder).head? ∧
      t = { s with builder := set (stack s.builder).tail s.builder } := by
  simp only [runs_bind, runs_current, runs_updateBuilder, runs_pure]
  constructor
  · rintro ⟨_, _, ⟨rfl, rfl⟩, _, _, rfl, rfl, rfl⟩
    exact ⟨rfl, rfl⟩
  · rintro ⟨rfl, rfl⟩
    exact ⟨_, _, ⟨rfl, rfl⟩, ⟨⟩, _, rfl, rfl, rfl⟩

@[simp] theorem runs_popRescuer {a : Option Label} : s.Runs popRescuer a t ↔
    a = s.builder.rescuers.head? ∧
      t = { s with builder := { s.builder with rescuers := s.builder.rescuers.tail } } :=
  runs_pop (·.rescuers) fun rescuers b => { b with rescuers }

@[simp] theorem runs_popRescue {a : Option RescueFrame} : s.Runs popRescue a t ↔
    a = s.builder.rescues.head? ∧
      t = { s with builder := { s.builder with rescues := s.builder.rescues.tail } } :=
  runs_pop (·.rescues) fun rescues b => { b with rescues }

@[simp] theorem runs_popEnsure {a : Option EnsureFrame} : s.Runs popEnsure a t ↔
    a = s.builder.ensures.head? ∧
      t = { s with builder := { s.builder with ensures := s.builder.ensures.tail } } :=
  runs_pop (·.ensures) fun ensures b => { b with ensures }

@[simp] theorem runs_popLoop {a : Option LoopFrame} : s.Runs popLoop a t ↔
    a = s.builder.loops.head? ∧
      t = { s with builder := { s.builder with loops := s.builder.loops.tail } } :=
  runs_pop (·.loops) fun loops b => { b with loops }

/-- Instructions go to the buffer of this frame. -/
def entering (s : Session) (frame : EnsureFrame) : Session :=
  { s with builder := { s.builder with ensureBodies := frame :: s.builder.ensureBodies } }

/-- Instructions go where they went before the innermost ensure body. -/
def leaving (s : Session) : Session :=
  { s with builder := { s.builder with ensureBodies := s.builder.ensureBodies.tail } }

@[simp] theorem runs_enterEnsureBody {frame : EnsureFrame} {v : Unit} :
    s.Runs (enterEnsureBody frame) v t ↔ t = s.entering frame := runs_updateBuilder

@[simp] theorem runs_exitEnsureBody {a : Option EnsureFrame} :
    s.Runs exitEnsureBody a t ↔ a = s.builder.ensureBodies.head? ∧ t = s.leaving :=
  runs_pop (·.ensureBodies) fun ensureBodies b => { b with ensureBodies }

/-- What was built meanwhile is in the frame and nowhere else. -/
theorem Emits.leaving {frame : EnsureFrame} {xs : List Instr} (h : (s.entering frame).Emits t xs) :
    s.Emits t.leaving [] ∧
      t.builder.ensureBodies.head? = some (frame.filled (frame.instrs ++ xs)) := by
  have hbodies := h.bodies
  refine ⟨⟨⟨h.registry, h.outer, h.scope, h.borrowsTemps, h.methodName, h.flags,
    h.nextLoop, h.start, ?_, ?_⟩,
    h.sameStacks.rescues, h.sameStacks.ensures, h.sameStacks.rescuers, h.sameStacks.loops⟩, ?_⟩
  · rw [addToBody_nil]
    simp only [Session.leaving, hbodies, entering, addToBody, List.tail_cons]
  · intro ys hys
    have hlist := h.list hys
    have hne : (s.entering frame).builder.ensureBodies ≠ [] := List.cons_ne_nil _ _
    rw [if_neg hne] at hlist
    have hnil : withoutLines [] = [] := rfl
    rw [hnil, ite_self]
    exact hlist
  · simp only [hbodies, entering, addToBody, List.head?_cons, EnsureFrame.filled]

end Stacks

theorem emits_of_cond {target : Label} {value test : Operand} {v : Unit}
    (h : s.Runs (cond target value test) v t) :
    ∃ i, Instr.branchIf? value test target = some i ∧ s.Emits t [i] := by
  simp only [cond, runs_bind, runs_liftM_except] at h
  obtain ⟨i, _, ⟨hi, rfl⟩, h⟩ := h
  refine ⟨i, ?_, emits_of_emit h⟩
  cases hb : Instr.branchIf? value test target <;> simp only [branchIf, hb, reduceCtorEq] at hi
  rw [Except.ok.inj hi]

/-- The frame of an ensure region that starts here, whose body is still to be built. -/
structure NewEnsure (s t : Session) (frame : EnsureFrame) : Prop extends s.Emits t [] where
  rescuer_eq : frame.rescuer = s.builder.rescuer
  innermostLoop_eq : frame.innermostLoop = s.builder.currentLoop.map (·.id)
  instrs_eq : frame.instrs = []
  ge : s.labels ≤ frame.regionStart.index.toNat
  lt_bodyStart : frame.regionStart.index.toNat < frame.bodyStart.index.toNat
  lt_bodyEnd : frame.bodyStart.index.toNat < frame.bodyEnd.index.toNat
  lt_dummyRescue : frame.bodyEnd.index.toNat < frame.dummyRescue.index.toNat
  lt : frame.dummyRescue.index.toNat < t.labels
  stems : ∀ l ∈ [frame.regionStart, frame.bodyStart, frame.bodyEnd, frame.dummyRescue],
    l.stem = "LBL"

theorem newEnsure_of_newEnsure {frame : EnsureFrame} (h : s.Runs newEnsure frame t) :
    s.NewEnsure t frame := by
  simp only [newEnsure, runs_bind, runs_current, runs_pure] at h
  obtain ⟨l₁, _, h₁, l₂, _, h₂, l₃, _, h₃, l₄, _, h₄, _, _, ⟨rfl, rfl⟩, rfl, rfl⟩ := h
  have h₁ := makesLabel_of_newLabel h₁
  have h₂ := makesLabel_of_newLabel h₂
  have h₃ := makesLabel_of_newLabel h₃
  have h₄ := makesLabel_of_newLabel h₄
  have hs := ((h₁.toEmits.trans h₂.toEmits).trans h₃.toEmits).trans h₄.toEmits
  refine ⟨hs, ?_, ?_, rfl, h₁.ge, h₁.lt.trans_le h₂.ge, h₂.lt.trans_le h₃.ge, h₃.lt.trans_le h₄.ge,
    h₄.lt, ?_⟩
  · simp only [Builder.rescuer, hs.sameStacks.rescuers]
  · simp only [Builder.currentLoop, hs.sameStacks.loops]
  · simp only [List.mem_cons, List.not_mem_nil, or_false]
    rintro l (rfl | rfl | rfl | rfl)
    · exact h₁.stem_eq
    · exact h₂.stem_eq
    · exact h₃.stem_eq
    · exact h₄.stem_eq

/-- The protected code begins. -/
structure OpensRegion (s t : Session) (frame : EnsureFrame) : Prop
    extends s.Adds t [.label frame.regionStart, .regionStart frame.dummyRescue] where
  rescues : t.builder.rescues = s.builder.rescues
  ensures : t.builder.ensures = frame :: s.builder.ensures
  rescuers : t.builder.rescuers = frame.dummyRescue :: s.builder.rescuers
  loops : t.builder.loops = s.builder.loops

/-- The protected code ends with its value in the result. -/
structure ClosesRegion (s t : Session) (result : Variable) (value : Operand) : Prop
    extends s.Adds t [.regionEnd, .copy result value] where
  rescues : t.builder.rescues = s.builder.rescues
  ensures : t.builder.ensures = s.builder.ensures.tail
  rescuers : t.builder.rescuers = s.builder.rescuers.tail
  loops : t.builder.loops = s.builder.loops

theorem Adds.of_stacks {rescues : List RescueFrame} {ensures : List EnsureFrame}
    {rescuers : List Label} {loops : List LoopFrame}
    (h : t = { s with builder := { s.builder with rescues, ensures, rescuers, loops } }) :
    s.Adds t [] := by
  rw [h]
  exact .of_sameList (.refl _) rfl rfl rfl (fun _ => id) le_rfl rfl rfl rfl

theorem opensRegion_of_runs {u₁ u₂ u₃ u₄ : Session} {frame : EnsureFrame} {result : Variable}
    {v₁ v₂ v₃ v₄ : Unit}
    (hpush : s.Runs (pushEnsure frame) v₁ u₁)
    (hlabel : u₁.Runs (emit (.label frame.regionStart)) v₂ u₂)
    (hstart : u₂.Runs (emit (.regionStart frame.dummyRescue)) v₃ u₃)
    (hrescuer : u₃.Runs (pushRescuer frame.dummyRescue) v₄ u₄)
    (hresult : u₄.Runs temp result t) : s.OpensRegion t frame := by
  have hpush := runs_updateBuilder.mp hpush
  have hrescuer := runs_updateBuilder.mp hrescuer
  have hresult := takesTemp_of_temp hresult
  have hemits := (emits_of_emit hlabel).trans (emits_of_emit hstart)
  have hadds := ((Adds.of_stacks hpush).trans hemits.toAdds).trans (Adds.of_stacks hrescuer)
  refine ⟨hadds.trans hresult.toAdds, ?_, ?_, ?_, ?_⟩
  · rw [hresult.sameStacks.rescues, hrescuer, hemits.sameStacks.rescues, hpush]
  · rw [hresult.sameStacks.ensures, hrescuer, hemits.sameStacks.ensures, hpush]
  · rw [hresult.sameStacks.rescuers, hrescuer, hemits.sameStacks.rescuers, hpush]
  · rw [hresult.sameStacks.loops, hrescuer, hemits.sameStacks.loops, hpush]

theorem closesRegion_of_runs {u₁ u₂ u₃ : Session} {label : Option Label}
    {frame : Option EnsureFrame} {result : Variable} {value : Operand} {v₁ v₂ : Unit}
    (hend : s.Runs (emit .regionEnd) v₁ u₁) (hrescuer : u₁.Runs popRescuer label u₂)
    (hpop : u₂.Runs popEnsure frame u₃) (hcopy : u₃.Runs (emit (.copy result value)) v₂ t) :
    frame = s.builder.ensures.head? ∧ s.ClosesRegion t result value := by
  have hend := emits_of_emit hend
  have hcopy := emits_of_emit hcopy
  obtain ⟨-, hrescuer⟩ := runs_popRescuer.mp hrescuer
  obtain ⟨hframe, hpop⟩ := runs_popEnsure.mp hpop
  have hadds := (hend.toAdds.trans (Adds.of_stacks hrescuer)).trans (Adds.of_stacks hpop)
  refine ⟨by rw [hframe, hrescuer, hend.sameStacks.ensures], hadds.trans hcopy.toAdds, ?_, ?_, ?_, ?_⟩
  · rw [hcopy.sameStacks.rescues, hpop, hrescuer, hend.sameStacks.rescues]
  · rw [hcopy.sameStacks.ensures, hpop, hrescuer, hend.sameStacks.ensures]
  · rw [hcopy.sameStacks.rescuers, hpop, hrescuer, hend.sameStacks.rescuers]
  · rw [hcopy.sameStacks.loops, hpop, hrescuer, hend.sameStacks.loops]

/-- A region that is closed again leaves the stacks as they were. -/
theorem OpensRegion.sameStacks {frame : EnsureFrame} {result : Variable} {value : Operand}
    {u v : Session} (hopen : s.OpensRegion u frame) (huv : u.builder.SameStacks v.builder)
    (hclose : v.ClosesRegion t result value) : s.builder.SameStacks t.builder where
  rescues := by rw [hclose.rescues, huv.rescues, hopen.rescues]
  ensures := by rw [hclose.ensures, huv.ensures, hopen.ensures, List.tail_cons]
  rescuers := by rw [hclose.rescuers, huv.rescuers, hopen.rescuers, List.tail_cons]
  loops := by rw [hclose.loops, huv.loops, hopen.loops]

/-- What is added from the begin of a region to its end is added by the region as a whole. -/
theorem OpensRegion.emits {frame : EnsureFrame} {result : Variable} {value : Operand}
    {u v : Session} {xs : List Instr} (hopen : s.OpensRegion u frame) (hxs : u.Emits v xs)
    (hclose : v.ClosesRegion t result value) :
    s.Emits t (.label frame.regionStart :: .regionStart frame.dummyRescue :: xs ++
      [.regionEnd, .copy result value]) where
  toAdds := by
    simpa only [List.append_assoc, List.cons_append, List.nil_append]
      using (hopen.toAdds.trans hxs.toAdds).trans hclose.toAdds
  sameStacks := hopen.sameStacks hxs.sameStacks hclose

/-- Behind the protected code stands the way past the cleanup, and the cleanup for what is raised. -/
theorem emits_behindRegion {frame : EnsureFrame} {exception : Variable} {v₁ v₂ v₃ v₄ v₅ v₆ : Unit}
    {u₁ u₂ u₃ u₄ u₅ u₆ : Session} (hjump : s.Runs (jump frame.bodyEnd) v₁ u₁)
    (hexception : u₁.Runs temp exception u₂)
    (hdummy : u₂.Runs (emit (.label frame.dummyRescue)) v₂ u₃)
    (hreceive : u₃.Runs (emit (.receiveException exception)) v₃ u₄)
    (hbody : u₄.Runs (emitEnsureBody frame) v₄ u₅)
    (hraise : u₅.Runs (emit (.raise exception)) v₅ u₆)
    (hafter : u₆.Runs (emit (.label frame.bodyEnd)) v₆ t) :
    s.Emits t (.jump frame.bodyEnd :: .label frame.dummyRescue :: .receiveException exception ::
      .label frame.bodyStart :: frame.instrs ++ [.raise exception, .label frame.bodyEnd]) := by
  have h := (emits_of_emit hjump).trans (takesTemp_of_temp hexception).toEmits
  have h := (h.trans (emits_of_emit hdummy)).trans (emits_of_emit hreceive)
  have h := (h.trans (emits_of_emitEnsureBody hbody)).trans (emits_of_emit hraise)
  simpa only [List.append_assoc, List.cons_append, List.nil_append]
    using h.trans (emits_of_emit hafter)

/-- The code whose exceptions are handled begins. -/
structure OpensRescue (s t : Session) (frame : RescueFrame) (rescuer after : Label) : Prop
    extends s.Adds t [.getGlobal frame.savedException BuildT.currentException, .label frame.entry,
      .regionStart rescuer] where
  rescues : t.builder.rescues = s.builder.rescues
  ensures : t.builder.ensures = s.builder.ensures
  rescuers : t.builder.rescuers = rescuer :: s.builder.rescuers
  loops : t.builder.loops = s.builder.loops
  ge : s.labels ≤ frame.entry.index.toNat
  lt_rescuer : frame.entry.index.toNat < rescuer.index.toNat
  lt_after : rescuer.index.toNat < after.index.toNat
  lt : after.index.toNat < t.labels
  stems : ∀ l ∈ [frame.entry, rescuer, after], l.stem = "LBL"

/-- The code whose exceptions are handled ends, and the handler begins. -/
structure EntersHandler (s t : Session) (frame : RescueFrame) (xs : List Instr) : Prop
    extends s.Adds t xs where
  rescues : t.builder.rescues = frame :: s.builder.rescues
  ensures : t.builder.ensures = s.builder.ensures
  rescuers : t.builder.rescuers = s.builder.rescuers.tail
  loops : t.builder.loops = s.builder.loops

structure LeavesHandler (s t : Session) (xs : List Instr) : Prop extends s.Adds t xs where
  rescues : t.builder.rescues = s.builder.rescues.tail
  ensures : t.builder.ensures = s.builder.ensures
  rescuers : t.builder.rescuers = s.builder.rescuers
  loops : t.builder.loops = s.builder.loops

/-- A loop begins, with the frame that exits in it look at. -/
structure OpensLoop (s t : Session) (frame : LoopFrame) (setResult : Label) : Prop
    extends s.Adds t [.label frame.loopStart] where
  rescues : t.builder.rescues = s.builder.rescues
  ensures : t.builder.ensures = s.builder.ensures
  rescuers : t.builder.rescuers = s.builder.rescuers
  loops : t.builder.loops = frame :: s.builder.loops
  id_ge : s.builder.nextLoop ≤ frame.id.number
  id_lt : frame.id.number < t.builder.nextLoop
  ge : s.labels ≤ frame.loopStart.index.toNat
  lt_loopEnd : frame.loopStart.index.toNat < frame.loopEnd.index.toNat
  lt_iterStart : frame.loopEnd.index.toNat < frame.iterStart.index.toNat
  lt_iterEnd : frame.iterStart.index.toNat < frame.iterEnd.index.toNat
  lt_setResult : frame.iterEnd.index.toNat < setResult.index.toNat
  lt : setResult.index.toNat < t.labels
  result_isTemp : frame.result.isTemp
  result_ge : s.temps ≤ frame.result.index
  result_lt : frame.result.index < t.temps
  stems : frame.loopStart.stem = "_LOOP_BEGIN" ∧ frame.loopEnd.stem = "_LOOP_END" ∧
    frame.iterStart.stem = "_ITER_BEGIN" ∧ frame.iterEnd.stem = "_ITER_END" ∧
    setResult.stem = "LBL"

structure ClosesLoop (s t : Session) (xs : List Instr) : Prop extends s.Adds t xs where
  rescues : t.builder.rescues = s.builder.rescues
  ensures : t.builder.ensures = s.builder.ensures
  rescuers : t.builder.rescuers = s.builder.rescuers
  loops : t.builder.loops = s.builder.loops.tail

theorem opensLoop_of_runs {frame : LoopFrame} {setResult : Label} {u₁ u₂ : Session} {v : Unit}
    (hpush : s.Runs pushLoop frame u₁) (hset : u₁.Runs newLabel setResult u₂)
    (hlabel : u₂.Runs (emit (.label frame.loopStart)) v t) : s.OpensLoop t frame setResult := by
  simp only [pushLoop, runs_bind, runs_current, runs_updateBuilder, runs_pure] at hpush
  obtain ⟨_, _, ⟨rfl, rfl⟩, _, u, hnext, l₁, _, h₁, l₂, _, h₂, l₃, _, h₃, l₄, _, h₄, r, _, hr,
    _, w, hflags, _, u₁, hpush, rfl, rfl⟩ := hpush
  have h₁ := makesLabel_of_newLabelNamed h₁
  have h₂ := makesLabel_of_newLabelNamed h₂
  have h₃ := makesLabel_of_newLabelNamed h₃
  have h₄ := makesLabel_of_newLabelNamed h₄
  have hr := takesTemp_of_temp hr
  have hset := makesLabel_of_newLabel hset
  have hlabels := ((h₁.toEmits.trans h₂.toEmits).trans h₃.toEmits).trans h₄.toEmits
  have hu : u.Emits w [] := (hlabels.trans hr.toEmits).trans (emits_of_insertFlags hflags)
  have hafter : u₁.Emits t [.label l₁] := hset.toEmits.trans (emits_of_emit hlabel)
  have hs : s.Adds u [] := by
    rw [hnext]
    exact .of_sameList (.refl _) rfl rfl rfl (fun _ => id) (Nat.le_succ _) rfl rfl rfl
  have hw : w.Adds u₁ [] := .of_stacks hpush
  have hws : w.labels ≤ setResult.index.toNat := hw.labels_le.trans hset.ge
  refine ⟨((hs.trans hu.toAdds).trans hw).trans hafter.toAdds, ?_, ?_, ?_, ?_, le_rfl, ?_,
    hs.labels_le.trans h₁.ge, h₁.lt.trans_le h₂.ge, h₂.lt.trans_le h₃.ge, h₃.lt.trans_le h₄.ge, ?_,
    hset.lt.trans_le (emits_of_emit hlabel).labels_le, hr.isTemp, ?_, ?_,
    h₁.stem_eq, h₂.stem_eq, h₃.stem_eq, h₄.stem_eq, hset.stem_eq⟩
  · rw [hafter.sameStacks.rescues, hpush, hu.sameStacks.rescues, hnext]
  · rw [hafter.sameStacks.ensures, hpush, hu.sameStacks.ensures, hnext]
  · rw [hafter.sameStacks.rescuers, hpush, hu.sameStacks.rescuers, hnext]
  · rw [hafter.sameStacks.loops, hpush, hu.sameStacks.loops, hnext]
  · have hnextLoop : u.builder.nextLoop = s.builder.nextLoop + 1 := by rw [hnext]
    have := hu.nextLoop
    have := hw.nextLoop
    have := hafter.nextLoop
    show s.builder.nextLoop < t.builder.nextLoop
    omega
  · exact h₄.lt.trans_le (hr.labels_le.trans ((emits_of_insertFlags hflags).labels_le.trans hws))
  · exact (hs.trans hlabels.toAdds).temps_le.trans hr.ge
  · exact hr.lt.trans_le (((emits_of_insertFlags hflags).toAdds.trans hw).trans
      hafter.toAdds).temps_le

theorem closesLoop_of_runs {frame : Option LoopFrame} {xs : List Instr} {u : Session}
    (hxs : s.Emits u xs) (hpop : u.Runs popLoop frame t) : s.ClosesLoop t xs := by
  obtain ⟨-, hpop⟩ := runs_popLoop.mp hpop
  refine ⟨?_, ?_, ?_, ?_, ?_⟩
  · simpa only [List.append_nil] using hxs.toAdds.trans (Adds.of_stacks hpop)
  · rw [hpop, hxs.sameStacks.rescues]
  · rw [hpop, hxs.sameStacks.ensures]
  · rw [hpop, hxs.sameStacks.rescuers]
  · rw [hpop, hxs.sameStacks.loops]

/-- What is added between the begin of a loop and its end is added by the loop as a whole. -/
theorem OpensLoop.emits {frame : LoopFrame} {setResult : Label} {u v : Session}
    {xs ys : List Instr} (hopen : s.OpensLoop u frame setResult) (hxs : u.Emits v xs)
    (hclose : v.ClosesLoop t ys) : s.Emits t (.label frame.loopStart :: xs ++ ys) where
  toAdds := by
    simpa only [List.append_assoc, List.cons_append, List.nil_append]
      using (hopen.toAdds.trans hxs.toAdds).trans hclose.toAdds
  sameStacks := by
    refine ⟨?_, ?_, ?_, ?_⟩
    · rw [hclose.rescues, hxs.sameStacks.rescues, hopen.rescues]
    · rw [hclose.ensures, hxs.sameStacks.ensures, hopen.ensures]
    · rw [hclose.rescuers, hxs.sameStacks.rescuers, hopen.rescuers]
    · rw [hclose.loops, hxs.sameStacks.loops, hopen.loops, List.tail_cons]

theorem opensRescue_of_runs {saved result : Variable} {entry rescuer after : Label}
    {u₁ u₂ u₃ u₄ u₅ u₆ u₇ u₈ : Session} {v₁ v₂ v₃ v₄ : Unit}
    (hsaved : s.Runs temp saved u₁)
    (hglobal : u₁.Runs (emit (.getGlobal saved BuildT.currentException)) v₁ u₂)
    (hentry : u₂.Runs newLabel entry u₃) (hrescuer : u₃.Runs newLabel rescuer u₄)
    (hafter : u₄.Runs newLabel after u₅) (hlabel : u₅.Runs (emit (.label entry)) v₂ u₆)
    (hstart : u₆.Runs (emit (.regionStart rescuer)) v₃ u₇)
    (hpush : u₇.Runs (pushRescuer rescuer) v₄ u₈) (hresult : u₈.Runs temp result t) :
    s.OpensRescue t ⟨entry, saved⟩ rescuer after := by
  have hbefore := (takesTemp_of_temp hsaved).toEmits.trans (emits_of_emit hglobal)
  have hentry := makesLabel_of_newLabel hentry
  have hrescuer := makesLabel_of_newLabel hrescuer
  have hafter := makesLabel_of_newLabel hafter
  have hlabels := (hentry.toEmits.trans hrescuer.toEmits).trans hafter.toEmits
  have hstart := (emits_of_emit hlabel).trans (emits_of_emit hstart)
  have hpush := runs_updateBuilder.mp hpush
  have hresult := (takesTemp_of_temp hresult).toEmits
  have hs := (hbefore.trans hlabels).trans hstart
  have hend := (hstart.toAdds.trans (Adds.of_stacks hpush)).trans hresult.toAdds
  refine ⟨(hs.toAdds.trans (Adds.of_stacks hpush)).trans hresult.toAdds, ?_, ?_, ?_, ?_,
    hbefore.labels_le.trans hentry.ge, hentry.lt.trans_le hrescuer.ge,
    hrescuer.lt.trans_le hafter.ge, hafter.lt.trans_le hend.labels_le, ?_⟩
  · rw [hresult.sameStacks.rescues, hpush, hs.sameStacks.rescues]
  · rw [hresult.sameStacks.ensures, hpush, hs.sameStacks.ensures]
  · rw [hresult.sameStacks.rescuers, hpush, hs.sameStacks.rescuers]
  · rw [hresult.sameStacks.loops, hpush, hs.sameStacks.loops]
  · simp only [List.mem_cons, List.not_mem_nil, or_false]
    rintro l (rfl | rfl | rfl)
    · exact hentry.stem_eq
    · exact hrescuer.stem_eq
    · exact hafter.stem_eq

theorem entersHandler_of_runs {label : Option Label} {exception result : Variable} {value : Operand}
    {rescuer after : Label} {frame : RescueFrame} {u₁ u₂ u₃ u₄ u₅ u₆ u₇ : Session}
    {v₁ v₂ v₃ v₄ v₅ v₆ : Unit} (hend : s.Runs (emit .regionEnd) v₁ u₁)
    (hpop : u₁.Runs popRescuer label u₂) (hcopy : u₂.Runs (emit (.copy result value)) v₂ u₃)
    (hjump : u₃.Runs (jump after) v₃ u₄) (hlabel : u₄.Runs (emit (.label rescuer)) v₄ u₅)
    (hexception : u₅.Runs temp exception u₆)
    (hreceive : u₆.Runs (emit (.receiveException exception)) v₅ u₇)
    (hpush : u₇.Runs (pushRescue frame) v₆ t) :
    s.EntersHandler t frame [.regionEnd, .copy result value, .jump after, .label rescuer,
      .receiveException exception] := by
  have hend := emits_of_emit hend
  obtain ⟨-, hpop⟩ := runs_popRescuer.mp hpop
  have hmiddle := ((emits_of_emit hcopy).trans (emits_of_emit hjump)).trans (emits_of_emit hlabel)
  have hmiddle := (hmiddle.trans (takesTemp_of_temp hexception).toEmits).trans
    (emits_of_emit hreceive)
  have hpush := runs_updateBuilder.mp hpush
  have hadds := (hend.toAdds.trans (Adds.of_stacks hpop)).trans hmiddle.toAdds
  refine ⟨hadds.trans (Adds.of_stacks hpush), ?_, ?_, ?_, ?_⟩
  · rw [hpush, hmiddle.sameStacks.rescues, hpop, hend.sameStacks.rescues]
  · rw [hpush, hmiddle.sameStacks.ensures, hpop, hend.sameStacks.ensures]
  · rw [hpush, hmiddle.sameStacks.rescuers, hpop, hend.sameStacks.rescuers]
  · rw [hpush, hmiddle.sameStacks.loops, hpop, hend.sameStacks.loops]

theorem leavesHandler_of_runs {frame : Option RescueFrame} {result : Variable} {handled : Operand}
    {after : Label} {u₁ u₂ : Session} {v₁ v₂ : Unit} (hpop : s.Runs popRescue frame u₁)
    (hcopy : u₁.Runs (emit (.copy result handled)) v₁ u₂)
    (hlabel : u₂.Runs (emit (.label after)) v₂ t) :
    s.LeavesHandler t [.copy result handled, .label after] := by
  obtain ⟨-, hpop⟩ := runs_popRescue.mp hpop
  have hend := (emits_of_emit hcopy).trans (emits_of_emit hlabel)
  refine ⟨(Adds.of_stacks hpop).trans hend.toAdds, ?_, ?_, ?_, ?_⟩
  · rw [hend.sameStacks.rescues, hpop]
  · rw [hend.sameStacks.ensures, hpop]
  · rw [hend.sameStacks.rescuers, hpop]
  · rw [hend.sameStacks.loops, hpop]

/-- A rescue that is over leaves the stacks as they were. -/
theorem OpensRescue.sameStacks {frame : RescueFrame} {rescuer after : Label} {u v w w' : Session}
    {ys ws : List Instr} (hopen : s.OpensRescue u frame rescuer after)
    (huv : u.builder.SameStacks v.builder) (henter : v.EntersHandler w frame ys)
    (hww' : w.builder.SameStacks w'.builder) (hleave : w'.LeavesHandler t ws) :
    s.builder.SameStacks t.builder where
  rescues := by
    rw [hleave.rescues, hww'.rescues, henter.rescues, List.tail_cons, huv.rescues, hopen.rescues]
  ensures := by rw [hleave.ensures, hww'.ensures, henter.ensures, huv.ensures, hopen.ensures]
  rescuers := by
    rw [hleave.rescuers, hww'.rescuers, henter.rescuers, huv.rescuers, hopen.rescuers,
      List.tail_cons]
  loops := by rw [hleave.loops, hww'.loops, henter.loops, huv.loops, hopen.loops]

/-- What is added from the begin of the code that is handled to the end of the handler is added by
the rescue as a whole. -/
theorem OpensRescue.emits {frame : RescueFrame} {rescuer after : Label} {u v w w' : Session}
    {xs ys zs ws : List Instr} (hopen : s.OpensRescue u frame rescuer after) (hxs : u.Emits v xs)
    (henter : v.EntersHandler w frame ys) (hzs : w.Emits w' zs) (hleave : w'.LeavesHandler t ws) :
    s.Emits t (.getGlobal frame.savedException BuildT.currentException :: .label frame.entry ::
      .regionStart rescuer :: xs ++ ys ++ zs ++ ws) where
  toAdds := by
    simpa only [List.append_assoc, List.cons_append, List.nil_append]
      using (((hopen.toAdds.trans hxs.toAdds).trans henter.toAdds).trans hzs.toAdds).trans
        hleave.toAdds
  sameStacks := hopen.sameStacks hxs.sameStacks henter hzs.sameStacks hleave

end Session

namespace TrailM

open Session

variable {α : Type} {s : Session} {h : Trail} {I : Nesting × Session → Prop}

theorem builds_ifElse {value test : Operand} {yes no : TrailM Unit}
    {Q : Unit → Session → Trail → List Instr → Prop}
    (H : ∀ {elseLabel endLabel s₁ s₂ s₃}, s.MakesLabel s₁ "LBL" elseLabel →
      s₁.MakesLabel s₂ "LBL" endLabel →
      s₂.Emits s₃ [.branchUnlessEqual elseLabel value test] →
      yes.Builds s₃ h I fun _ s₄ k xs =>
        ∀ {s₅}, s₄.Emits s₅ [.jump endLabel, .label elseLabel] →
          no.Builds s₅ k I fun _ s₆ k' ys =>
            ∀ {t}, s₆.Emits t [.label endLabel] →
              Q () t k' (.branchUnlessEqual elseLabel value test :: xs ++
                .jump endLabel :: .label elseLabel :: ys ++ [.label endLabel])) :
    Builds (BuildT.ifElse value test yes no) s h I Q := by
  unfold BuildT.ifElse
  refine Yields.lift_bind fun helse => Yields.lift_bind fun hend => ?_
  refine Yields.lift_bind fun hbranch => ?_
  have helse := makesLabel_of_newLabel helse
  have hend := makesLabel_of_newLabel hend
  have hbranch := emits_of_emit hbranch
  refine Builds.andThen (H helse hend hbranch) fun hxs H => ?_
  refine Yields.lift_bind fun hjump => Yields.lift_bind fun hlabel => ?_
  have hmiddle := (emits_of_emit hjump).trans (emits_of_emit hlabel)
  refine Builds.andThen (H hmiddle) fun hys H => Yields.lift fun hlabel => ?_
  have hs := ((helse.toEmits.trans hend.toEmits).trans hbranch).trans hxs
  have hs := ((hs.trans hmiddle).trans hys).trans (emits_of_emit hlabel)
  refine ⟨_, ?_, H (emits_of_emit hlabel)⟩
  simpa only [List.append_assoc, List.cons_append, List.nil_append] using hs

/-- An index without a label does nothing. -/
theorem builds_withHanded {target : Nat} {act : Label → SessionM Unit}
    {Q : Unit → Session → Trail → List Instr → Prop}
    (hact : ∀ {l t}, h.handed[target]? = some l → s.Runs (act l) () t →
      ∃ xs, s.Emits t xs ∧ Q () t h xs)
    (hnone : h.handed[target]? = none → Q () s h []) : Builds (withHanded target act) s h I Q := by
  refine Yields.trail_bind ?_
  split
  · next hl => exact Builds.lift (hact hl)
  · next hnil => exact Builds.pure (hnone hnil)

theorem builds_labelled {stem : String} {body : Label → TrailM α}
    {Q : α → Session → Trail → List Instr → Prop}
    (H : ∀ {label s₁}, s.MakesLabel s₁ stem label →
      (body label).Builds s₁ h I fun a s₂ k xs =>
        ∀ {t}, s₂.Emits t [.label label] → Q a t k (xs ++ [.label label])) :
    Builds (BuildT.labelled stem body) s h I Q := by
  unfold BuildT.labelled
  refine Yields.lift_bind fun hlabel => ?_
  have hlabel := makesLabel_of_newLabelNamed hlabel
  refine Builds.andThen (H hlabel) fun hxs H => Yields.lift_bind fun hemit => Yields.pure ?_
  exact ⟨_, (hlabel.toEmits.trans hxs).trans (emits_of_emit hemit), H (emits_of_emit hemit)⟩

theorem builds_ifNot {value test : Operand} {body : TrailM Unit}
    {Q : Unit → Session → Trail → List Instr → Prop}
    (H : ∀ {label s₁ s₂ i}, s.MakesLabel s₁ "if_not_end" label →
      Instr.branchIf? value test label = some i → s₁.Emits s₂ [i] →
      body.Builds s₂ h I fun _ s₃ k xs =>
        ∀ {t}, s₃.Emits t [.label label] → Q () t k (i :: xs ++ [.label label])) :
    Builds (BuildT.ifNot value test body) s h I Q := by
  refine builds_labelled fun hlabel => ?_
  refine Yields.lift_bind fun hcond => ?_
  obtain ⟨i, hi, hemit⟩ := emits_of_cond hcond
  exact Yields.mono (H hlabel hi hemit) fun ⟨xs, hxs, H⟩ => ⟨_, hemit.trans hxs, H⟩

theorem builds_forLoop {test increment : Label → TrailM Unit} {body : Label → Label → TrailM Unit}
    {Q : Unit → Session → Trail → List Instr → Prop}
    (H : ∀ {top bottom after s₁ s₂ s₃ s₄}, s.MakesLabel s₁ "for_top" top →
      s₁.MakesLabel s₂ "for_bottom" bottom → s₂.MakesLabel s₃ "for_end" after →
      s₃.Emits s₄ [.label top] →
      (test after).Builds s₄ h I fun _ s₅ k xs =>
        (body after bottom).Builds s₅ k I fun _ s₆ k' ys =>
          ∀ {s₇}, s₆.Emits s₇ [.label bottom] →
            (increment after).Builds s₇ k' I fun _ s₈ l zs =>
              ∀ {t}, s₈.Emits t [.jump top, .label after] →
                Q () t l (.label top :: xs ++ ys ++ .label bottom :: zs ++
                  [.jump top, .label after])) :
    Builds (BuildT.forLoop test increment body) s h I Q := by
  unfold BuildT.forLoop
  refine Yields.lift_bind fun htop => Yields.lift_bind fun hbottom => ?_
  have htop := makesLabel_of_newLabelNamed htop
  have hbottom := makesLabel_of_newLabelNamed hbottom
  have hs := htop.toEmits.trans hbottom.toEmits
  refine Yields.mono (builds_labelled (Q := fun _ t k xs => Q () t k xs) fun hafter => ?_) ?_
  · refine Yields.lift_bind fun hlabel => ?_
    have hlabel := emits_of_emit hlabel
    refine Builds.andThen (H htop hbottom hafter hlabel) fun hxs H => ?_
    refine Builds.andThen H fun hys H => Yields.lift_bind fun hmiddle => ?_
    have hmiddle := emits_of_emit hmiddle
    refine Builds.andThen (H hmiddle) fun hzs H => Yields.lift fun hjump => ?_
    have hjump := emits_of_emit hjump
    refine ⟨_, (((hlabel.trans hxs).trans hys).trans hmiddle).trans (hzs.trans hjump), ?_⟩
    intro t ht
    simpa only [List.append_assoc, List.cons_append, List.nil_append] using H (hjump.trans ht)
  · intro _ t k ⟨xs, hxs, hQ⟩
    exact ⟨xs, hs.trans hxs, hQ⟩

theorem builds_loop_testFirst {condition : TrailM Operand} {body : TrailM Unit} {goOn : Bool}
    {Q : Operand → Session → Trail → List Instr → Prop}
    (H : ∀ {frame setResult s₁}, s.OpensLoop s₁ frame setResult →
      condition.Builds s₁ h I fun value s₂ k xs =>
        ∀ {i s₃}, Instr.branchIf? value (.boolean !goOn) setResult = some i →
          s₂.Emits s₃ [i, .label frame.iterStart, .threadPoll] →
          body.Builds s₃ k I fun _ s₄ k' ys =>
            ∀ {t}, s₄.ClosesLoop t [.label frame.iterEnd, .jump frame.loopStart,
                .label setResult, .copy frame.result .nil, .label frame.loopEnd] →
              Q frame.result t k' (.label frame.loopStart :: xs ++
                i :: .label frame.iterStart :: .threadPoll :: ys ++
                [.label frame.iterEnd, .jump frame.loopStart, .label setResult,
                  .copy frame.result .nil, .label frame.loopEnd])) :
    Builds (BuildT.loop condition body goOn true) s h I Q := by
  simp only [BuildT.loop, reduceIte]
  refine Yields.lift_bind fun {frame _} hpush => Yields.lift_bind fun hset => ?_
  refine Yields.lift_bind fun hlabel => ?_
  have hopen := opensLoop_of_runs hpush hset hlabel
  refine Builds.andThen (H hopen) fun hxs H => ?_
  refine Yields.lift_bind fun hcond => Yields.lift_bind fun hlabel => ?_
  refine Yields.lift_bind fun hpoll => ?_
  obtain ⟨i, hi, hcond⟩ := emits_of_cond hcond
  have hmiddle := (hcond.trans (emits_of_emit hlabel)).trans (emits_of_emit hpoll)
  refine Builds.andThen (H hi hmiddle) fun hys H => ?_
  refine Yields.lift_bind fun hnext => Yields.lift_bind fun hjump => ?_
  refine Yields.lift_bind fun hset => Yields.lift_bind fun hnil => ?_
  refine Yields.lift_bind fun hafter => Yields.lift_bind fun hpop => Yields.pure ?_
  have hend := ((emits_of_emit hnext).trans (emits_of_emit hjump)).trans (emits_of_emit hset)
  have hend := (hend.trans (emits_of_emit hnil)).trans (emits_of_emit hafter)
  have hclose := closesLoop_of_runs hend hpop
  refine ⟨_, ?_, H hclose⟩
  simpa only [List.append_assoc, List.cons_append, List.nil_append]
    using hopen.emits ((hxs.trans hmiddle).trans hys) hclose

theorem builds_loop_testLast {condition : TrailM Operand} {body : TrailM Unit} {goOn : Bool}
    {Q : Operand → Session → Trail → List Instr → Prop}
    (H : ∀ {frame setResult s₁ s₂}, s.OpensLoop s₁ frame setResult →
      s₁.Emits s₂ [.label frame.iterStart, .threadPoll] →
      body.Builds s₂ h I fun _ s₃ k xs =>
        ∀ {s₄}, s₃.Emits s₄ [.label frame.iterEnd] →
          condition.Builds s₄ k I fun value s₅ k' ys =>
            ∀ {i t}, Instr.branchIf? value (.boolean goOn) frame.iterStart = some i →
              s₅.ClosesLoop t [i, .label setResult, .copy frame.result .nil,
                .label frame.loopEnd] →
              Q frame.result t k' (.label frame.loopStart :: .label frame.iterStart ::
                .threadPoll :: xs ++ .label frame.iterEnd :: ys ++
                [i, .label setResult, .copy frame.result .nil, .label frame.loopEnd])) :
    Builds (BuildT.loop condition body goOn false) s h I Q := by
  simp only [BuildT.loop, Bool.false_eq_true, reduceIte]
  refine Yields.lift_bind fun {frame _} hpush => Yields.lift_bind fun hset => ?_
  refine Yields.lift_bind fun hlabel => ?_
  have hopen := opensLoop_of_runs hpush hset hlabel
  refine Yields.lift_bind fun hlabel => Yields.lift_bind fun hpoll => ?_
  have hstart := (emits_of_emit hlabel).trans (emits_of_emit hpoll)
  refine Builds.andThen (H hopen hstart) fun hxs H => ?_
  refine Yields.lift_bind fun hnext => ?_
  refine Builds.andThen (H (emits_of_emit hnext)) fun hys H => ?_
  refine Yields.lift_bind fun hcond => ?_
  obtain ⟨i, hi, hcond⟩ := emits_of_cond hcond
  refine Yields.lift_bind fun hset => Yields.lift_bind fun hnil => ?_
  refine Yields.lift_bind fun hafter => Yields.lift_bind fun hpop => Yields.pure ?_
  have hend := (hcond.trans (emits_of_emit hset)).trans (emits_of_emit hnil)
  have hclose := closesLoop_of_runs (hend.trans (emits_of_emit hafter)) hpop
  refine ⟨_, ?_, H hi hclose⟩
  simpa only [List.append_assoc, List.cons_append, List.nil_append]
    using hopen.emits (((hstart.trans hxs).trans (emits_of_emit hnext)).trans hys) hclose

theorem builds_ensure {body cleanup : TrailM Operand}
    {Q : Operand → Session → Trail → List Instr → Prop}
    (H : ∀ {frame s₁}, s.NewEnsure s₁ frame →
      cleanup.Builds (s₁.entering frame) h I fun _ s₂ k ys =>
        ∀ result {s₃}, s₂.leaving.OpensRegion s₃ (frame.filled ys) →
          body.Builds s₃ k I fun value s₄ k' xs =>
            ∀ exception {s₅ s₆ t cs}, s₄.ClosesRegion s₅ result value →
              Copies (frame.filled ys) s₅ s₆ cs →
              s₆.Emits t (.jump frame.bodyEnd :: .label frame.dummyRescue ::
                .receiveException exception :: .label frame.bodyStart ::
                ys ++ [.raise exception, .label frame.bodyEnd]) →
              Q result t k' (.label frame.regionStart :: .regionStart frame.dummyRescue :: xs ++
                .regionEnd :: .copy result value :: cs ++ .jump frame.bodyEnd ::
                .label frame.dummyRescue :: .receiveException exception ::
                .label frame.bodyStart :: ys ++ [.raise exception, .label frame.bodyEnd])) :
    Builds (BuildT.ensure body cleanup) s h I Q := by
  unfold BuildT.ensure
  refine Yields.lift_bind fun {frame s₁} hframe => Yields.lift_bind fun henter => ?_
  obtain rfl := runs_enterEnsureBody.mp henter
  have hframe := newEnsure_of_newEnsure hframe
  -- the body's buffer is left again whether the cleanup is built or not
  refine Yields.attempt_bind (Yields.mono (H hframe) ?_) ?_
  · intro _ s₂ k ⟨ys, hys, H⟩
    obtain ⟨hleave, hhead⟩ := hys.leaving
    rw [hframe.instrs_eq, List.nil_append] at hhead
    refine Yields.lift_bind fun hexit => ?_
    obtain ⟨rfl, rfl⟩ := runs_exitEnsureBody.mp hexit
    rw [hhead]
    refine Yields.bind (Yields.pure ?_)
    refine Yields.lift_bind fun hpush => Yields.lift_bind fun hlabel => ?_
    refine Yields.lift_bind fun hstart => Yields.lift_bind fun hrescuer => ?_
    refine Yields.lift_bind fun {result _} hresult => ?_
    have hopen := opensRegion_of_runs hpush hlabel hstart hrescuer hresult
    refine Builds.andThen (H result hopen) fun hxs H => ?_
    refine Yields.lift_bind fun hend => Yields.lift_bind fun hrescuer => ?_
    refine Yields.lift_bind fun hpop => ?_
    -- the frame that is popped is the one that was pushed, since the body restored the stacks
    split
    · refine Yields.lift_bind fun hcopy => ?_
      obtain ⟨hpopped, hclose⟩ := closesRegion_of_runs hend hrescuer hpop hcopy
      rw [hxs.sameStacks.ensures, hopen.ensures, List.head?_cons] at hpopped
      obtain rfl := Option.some.inj hpopped
      refine Yields.lift_bind fun {_ s₆} hcopies => Yields.lift_bind fun hjump => ?_
      refine Yields.lift_bind fun {exception _} hexception => Yields.lift_bind fun hdummy => ?_
      refine Yields.lift_bind fun hreceive => Yields.lift_bind fun hbody => ?_
      refine Yields.lift_bind fun hraise => Yields.lift_bind fun {_ t} hafter => Yields.pure ?_
      obtain ⟨cs, hcs⟩ := copies_of_copyEnsure hcopies
      have htail := emits_behindRegion hjump hexception hdummy hreceive hbody hraise hafter
      refine ⟨_, ?_, H exception hclose hcs htail⟩
      have hwhole := (hframe.toEmits.trans hleave).trans (hopen.emits hxs hclose)
      simpa only [EnsureFrame.filled, List.append_assoc, List.cons_append, List.nil_append]
        using hwhole.trans (hcs.emits.trans htail)
    · exact Yields.throw
  · intro e t k
    refine Yields.lift_bind fun hexit => ?_
    split
    · exact Yields.bind Yields.throw
    · exact Yields.throw

theorem builds_rescue {body : TrailM Operand} {handler : Variable → TrailM Operand}
    {Q : Operand → Session → Trail → List Instr → Prop}
    (H : ∀ {frame rescuer after} result {s₁}, s.OpensRescue s₁ frame rescuer after →
      body.Builds s₁ h I fun value s₂ k xs =>
        ∀ exception {s₃}, s₂.EntersHandler s₃ frame [.regionEnd, .copy result value, .jump after,
            .label rescuer, .receiveException exception] →
          (handler exception).Builds s₃ k I fun handled s₄ k' ys =>
            ∀ {t}, s₄.LeavesHandler t [.copy result handled, .label after] →
              Q result t k' (.getGlobal frame.savedException BuildT.currentException ::
                .label frame.entry :: .regionStart rescuer :: xs ++
                .regionEnd :: .copy result value :: .jump after :: .label rescuer ::
                .receiveException exception :: ys ++ [.copy result handled, .label after])) :
    Builds (BuildT.rescue body handler) s h I Q := by
  unfold BuildT.rescue
  refine Yields.lift_bind fun hsaved => Yields.lift_bind fun hglobal => ?_
  refine Yields.lift_bind fun hentry => Yields.lift_bind fun hrescuer => ?_
  refine Yields.lift_bind fun hafter => Yields.lift_bind fun hlabel => ?_
  refine Yields.lift_bind fun hstart => Yields.lift_bind fun hpush => ?_
  refine Yields.lift_bind fun {result _} hresult => ?_
  have hopen :=
    opensRescue_of_runs hsaved hglobal hentry hrescuer hafter hlabel hstart hpush hresult
  refine Builds.andThen (H result hopen) fun hxs H => ?_
  refine Yields.lift_bind fun hend => Yields.lift_bind fun hpop => ?_
  refine Yields.lift_bind fun hcopy => Yields.lift_bind fun hjump => ?_
  refine Yields.lift_bind fun hlabel => Yields.lift_bind fun {exception _} hexception => ?_
  refine Yields.lift_bind fun hreceive => Yields.lift_bind fun hpush => ?_
  have henter := entersHandler_of_runs hend hpop hcopy hjump hlabel hexception hreceive hpush
  -- the rescue is popped again whether the handler is built or not
  refine Yields.attempt_bind (Yields.mono (H exception henter) ?_) ?_
  · intro handled s₄ k' ⟨ys, hys, H⟩
    refine Yields.lift_bind fun hpop => Yields.bind (Yields.pure ?_)
    refine Yields.lift_bind fun hcopy => Yields.lift_bind fun hlabel => Yields.pure ?_
    have hleave := leavesHandler_of_runs hpop hcopy hlabel
    refine ⟨_, ?_, H hleave⟩
    simpa only [List.append_assoc, List.cons_append, List.nil_append]
      using hopen.emits hxs henter hys hleave
  · intro e t k
    exact Yields.lift_bind fun _ => Yields.bind Yields.throw

end TrailM

end ScopeIR
