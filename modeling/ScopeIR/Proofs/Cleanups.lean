import ScopeIR.Proofs.Simulation

/-! What leaves a protected body comes to its cleanup or its handler first. An exit runs the copies that
were made for it, a raise goes to the rescuer. -/

namespace ScopeIR

section Exits

variable {σ : Site} {o : Completion} {frame : EnsureFrame} {frames : List EnsureFrame}
  {last : List Instr}

/-- The frame was made in the loop that is left, and copying stops at frames of loops around it. -/
theorem Site.passedEnsures_inEnsure {loop : LoopFrame}
    (hloop : frame.innermostLoop = σ.loops.head?.map (·.id)) (hhead : σ.loops.head? = some loop) :
    Session.passedEnsures (some loop.id) (frame :: σ.ensures) =
      frame :: Session.passedEnsures (some loop.id) σ.ensures := by
  have hframe : decide (frame.innermostLoop = some loop.id) = true := by
    rw [hloop, hhead]
    exact decide_eq_true rfl
  exact List.takeWhile_cons_of_pos
    (p := fun f : EnsureFrame => f.innermostLoop = some loop.id) hframe

/-- An exit out of a protected body runs the cleanup and is an exit from there. -/
theorem Site.Exits.of_inEnsure (h : (σ.inEnsure frame).Exits o frames last)
    (hloop : frame.innermostLoop = σ.loops.head?.map (·.id)) :
    ∃ outer, frames = frame :: outer ∧ σ.Exits o outer last := by
  cases h with
  | breaks hhead => exact ⟨_, passedEnsures_inEnsure hloop hhead, .breaks hhead⟩
  | nexts hhead => exact ⟨_, passedEnsures_inEnsure hloop hhead, .nexts hhead⟩
  | returns => exact ⟨_, rfl, .returns⟩

theorem Site.Exits.of_inRescue {rescuer : Label} (h : (σ.inRescue rescuer).Exits o frames last) :
    σ.Exits o frames last := by
  cases h with
  | breaks hhead => exact .breaks hhead
  | nexts hhead => exact .nexts hhead
  | returns => exact .returns

theorem Site.Exits.of_inHandler {rescue : RescueFrame}
    (h : (σ.inHandler rescue).Exits o frames last) : σ.Exits o frames last := by
  cases h with
  | breaks hhead => exact .breaks hhead
  | nexts hhead => exact .nexts hhead
  | returns => exact .returns

theorem Ends.of_inHandler {prog : List Instr} {rescue : RescueFrame} {ρs : List Renaming} {q : Nat}
    {past : Deeds} {m : Machine} (h : Ends prog (σ.inHandler rescue) ρs q o past m) :
    Ends prog σ ρs q o past m := by
  cases h with
  | falls => exact .falls
  | raises => exact .raises
  | exits hexit hcopies hhosts => exact .exits hexit.of_inHandler hcopies hhosts

end Exits

/-- The frame's body is that of the cleanup, which no exit leaves. -/
structure Cleans (O : Oracle) (prog : List Instr) (fuel : Nat) (σ : Site) (cleanup : Code)
    (frame : EnsureFrame) : Prop where
  rescuer : frame.rescuer = σ.rescuer
  balanced : Balanced frame.instrs
  inside : cleanup.IsInside false
  simulates : Simulates O prog fuel σ cleanup frame.instrs
  idle : frame.instrs = [] → ∀ past, cleanup.run O fuel past = (some .falls, past)

section Protection

open Machine

variable {O : Oracle} {prog : List Instr} {fuel n p q q' : Nat} {σ σ' : Site} {ρs ρs' : List Renaming}
  {m : Machine} {r : Result} {past : Deeds} {xs ys cs : List Instr} {frame : EnsureFrame}
  {cleanup : Code}

/-- Code that no exit leaves ends alike for all sites with the same rescuer. -/
theorem Follows.moved (h : Follows O prog n m r (Ends prog σ ρs q))
    (hr : r.Ends (·.IsInside false)) (hrescuer : σ.rescuer.renames ρs = σ'.rescuer.renames ρs')
    (hgo : ∀ past, (Machine.at q past).Leads O prog (.at q' past)) :
    Follows O prog n m r (Ends prog σ' ρs' q') := by
  obtain ⟨_ | o, past⟩ := r
  · exact h
  obtain ⟨k, h⟩ := h
  have ho := hr o past rfl
  generalize hm : exec O prog k m = m' at h
  cases h with
  | falls =>
    obtain ⟨j, hj⟩ := hgo past
    exact ⟨k + j, by rw [exec_add, hm, hj]; exact .falls⟩
  | raises => exact ⟨k, by rw [hm, hrescuer]; exact .raises⟩
  | exits hexit =>
    cases hexit with
    | breaks | nexts => cases ho
    | returns => exact ho.elim

variable (hp : Runnable prog)

include hp

/-- A copy does what the cleanup means. What it raises goes where the ensure was written. -/
theorem Cleans.copy (h : Cleans O prog fuel σ cleanup frame) (hρs : ∀ ρ ∈ ρs, ρ.KeepsNames)
    (hcs : IsCopy frame cs) (hhosts : Hosts prog ρs p cs) :
    Follows O prog fuel (.at p past) (cleanup.run O fuel past) (Ends prog σ ρs (p + cs.length)) := by
  cases hcs with
  | empty hnone =>
    rw [h.idle hnone]
    exact .here .falls
  | @full ρ hρ hrescuer =>
    simp only [EnsureFrame.copy, List.cons_append, hosts_cons_iff, hosts_append_iff] at hhosts
    obtain ⟨hlabel, hstart, hbody, hend, -⟩ := hhosts
    have hlength : p + 1 + 1 + frame.instrs.length + 1 = p + (frame.copy ρ).length := by
      simp only [EnsureFrame.copy, List.cons_append, List.length_cons, List.length_append,
        List.length_map, List.length_nil]
      omega
    rw [List.length_map] at hend
    rw [Hosts, List.map_map] at hbody
    -- a copy starts the region of the frame's own rescuer, which its renaming leaves alone
    have hsame : σ.rescuer.renames (ρ :: ρs) = σ.rescuer.renames ρs := by
      rw [← h.rescuer]
      exact congrArg (Label.renames ρs) hrescuer
    have hcovered : rescuerAt prog (p + 1 + 1) = σ.rescuer.renames (ρ :: ρs) := by
      rw [hsame, hp.rescuerAt_regionStart hstart, h.rescuer]
    refine Follows.after_step (step_passes hρs hlabel rfl) ?_
    refine Follows.after_step (step_passes hρs hstart rfl) ?_
    have hnames := List.forall_mem_cons.mpr ⟨hρ, hρs⟩
    have hrun := h.simulates (ρ :: ρs) _ _ past hnames hbody rfl hcovered
    rw [← hlength]
    exact hrun.moved (Code.ends_run h.inside past) hsame fun past =>
      .step (step_passes hρs hend rfl) (.refl _)

theorem rescuerAt_region {l : Label} (hstart : prog[p]? = some ((Instr.regionStart l).renames ρs))
    (hxs : Hosts prog ρs (p + 1) xs) (hbalanced : Balanced xs)
    (hend : prog[p + 1 + xs.length]? = some (Instr.regionEnd.renames ρs)) :
    rescuerAt prog (p + 1 + xs.length + 1) = rescuerAt prog p := by
  have hhosts : Hosts prog ρs p (.regionStart l :: xs ++ [.regionEnd]) := by
    rw [List.cons_append, hosts_cons_iff, hosts_append_iff, hosts_cons_iff]
    exact ⟨hstart, hxs, hend, standsAt_nil⟩
  have hregion := hp.rescuerAt_hosts hhosts (hbalanced.region .nil)
  rwa [List.cons_append, List.length_cons, List.length_append, List.length_cons, List.length_nil,
    show p + (xs.length + (0 + 1) + 1) = p + 1 + xs.length + 1 by omega] at hregion

/-- However the body ends, the cleanup runs once: in front of the end, as one of the copies that an
exit runs, or as the body of the rescuer. -/
theorem simulates_ensure {body : Code} {value unused : Operand} {result exception : Variable}
    (h : Cleans O prog fuel σ cleanup frame)
    (hloop : frame.innermostLoop = σ.loops.head?.map (·.id))
    (hx : Simulates O prog fuel (σ.inEnsure frame) body xs) (hxs : Balanced xs)
    (hcs : IsCopy frame cs) :
    Simulates O prog fuel σ (.ensure body value cleanup unused) (.label frame.regionStart ::
      .regionStart frame.dummyRescue :: xs ++ .regionEnd :: .copy result value :: cs ++
      .jump frame.bodyEnd :: .label frame.dummyRescue :: .receiveException exception ::
      .label frame.bodyStart :: frame.instrs ++ [.raise exception, .label frame.bodyEnd]) := by
  intro ρs p q past hρs hhosts hq hrescuer
  simp only [List.cons_append, List.append_assoc, hosts_cons_iff, hosts_append_iff] at hhosts
  obtain ⟨hlabel, hstart, hbody, hend, hresult, hcopy, hjump, hdummy, hreceive, hbodyStart, hcleanup,
    hraise, hbodyEnd, -⟩ := hhosts
  obtain rfl : q = p + 1 + 1 + xs.length + 1 + 1 + cs.length + 1 + 1 + 1 + 1 + frame.instrs.length +
      1 + 1 := by
    simp only [hq, List.cons_append, List.length_cons, List.length_append, List.length_nil]
    omega
  -- the region is closed again in front of the copy
  have hopened := (hp.rescuerAt_inside hlabel rfl).trans hrescuer
  have hclosed := (rescuerAt_region hp hstart hbody hxs hend).trans hopened
  have hafter := (hp.rescuerAt_hosts hcopy (hcs.balanced h.balanced)).trans
    ((hp.rescuerAt_inside hresult rfl).trans hclosed)
  have hcovered := (hp.rescuerAt_inside hbodyStart rfl).trans ((hp.rescuerAt_inside hreceive rfl).trans
    ((hp.rescuerAt_inside hdummy rfl).trans ((hp.rescuerAt_inside hjump rfl).trans hafter)))
  refine Follows.after_step (step_passes hρs hlabel rfl) ?_
  refine Follows.after_step (step_passes hρs hstart rfl) ?_
  refine (hx ρs _ _ past hρs hbody rfl (hp.rescuerAt_regionStart hstart)).bind
    fun {o past m} hm => ?_
  cases hm with
  | falls =>
    -- the copy at hand, then over the body
    refine Follows.after_step (step_passes hρs hend rfl) ?_
    refine Follows.after_step (step_passes hρs hresult rfl) ?_
    refine (h.copy hp hρs hcs hcopy).andThen fun past => ?_
    refine Follows.after_step ((step_goes hρs hjump rfl).trans (hp.goTo_renames hbodyEnd)) ?_
    exact Follows.after_step (step_passes hρs hbodyEnd rfl) (.here .falls)
  | raises =>
    -- the body itself, at whose end the exception is raised again
    have hrescue : raised prog (frame.dummyRescue.renames ρs) past = _ := hp.raised_renames hdummy
    refine hrescue ▸ Follows.after_step (step_passes hρs hdummy rfl) ?_
    refine Follows.after_step (step_passes hρs hreceive rfl) ?_
    refine Follows.after_step (step_passes hρs hbodyStart rfl) ?_
    refine (h.simulates ρs _ _ past hρs hcleanup rfl hcovered).andThen fun past => ?_
    have hraised : step O prog (.at _ past) = _ := step_raises hρs hraise rfl
    rw [(hp.rescuerAt_hosts hcleanup h.balanced).trans hcovered] at hraised
    exact Follows.after_step hraised (.here .raises)
  | exits hexit hcopies hhosts =>
    -- the first of the copies that the exit runs; what is left of it exits from the site around
    obtain ⟨outer, rfl, houter⟩ := hexit.of_inEnsure hloop
    cases hcopies with
    | cons hfirst hrest =>
      rw [List.append_assoc] at hhosts
      obtain ⟨hfirst', hhosts⟩ := hosts_append_iff.mp hhosts
      exact (h.copy hp hρs hfirst hfirst').andThen fun past =>
        .here (.exits houter hrest hhosts)

theorem simulates_rescue {body handler : Code} {value handled : Operand} {rescue : RescueFrame}
    {rescuer after : Label} {result exception : Variable}
    (hx : Simulates O prog fuel (σ.inRescue rescuer) body xs) (hxs : Balanced xs)
    (hy : Simulates O prog fuel (σ.inHandler rescue) handler ys) :
    Simulates O prog fuel σ (.rescue body value handler handled)
      (.getGlobal rescue.savedException BuildT.currentException :: .label rescue.entry ::
        .regionStart rescuer :: xs ++ .regionEnd :: .copy result value :: .jump after ::
        .label rescuer :: .receiveException exception :: ys ++
        [.copy result handled, .label after]) := by
  intro ρs p q past hρs hhosts hq hrescuer
  simp only [List.cons_append, List.append_assoc, hosts_cons_iff, hosts_append_iff] at hhosts
  obtain ⟨hsave, hentry, hstart, hbody, hend, hresult, hjump, hlabel, hreceive, hhandler, hresult',
    hafter, -⟩ := hhosts
  obtain rfl : q = p + 1 + 1 + 1 + xs.length + 1 + 1 + 1 + 1 + 1 + ys.length + 1 + 1 := by
    simp only [hq, List.cons_append, List.length_cons, List.length_append, List.length_nil]
    omega
  have hopened := (hp.rescuerAt_inside hentry rfl).trans
    ((hp.rescuerAt_inside hsave rfl).trans hrescuer)
  have hclosed := (rescuerAt_region hp hstart hbody hxs hend).trans hopened
  have hcovered := (hp.rescuerAt_inside hreceive rfl).trans ((hp.rescuerAt_inside hlabel rfl).trans
    ((hp.rescuerAt_inside hjump rfl).trans ((hp.rescuerAt_inside hresult rfl).trans hclosed)))
  have hleave : ∀ past, (Machine.at _ past).Leads O prog (.at _ past) := fun past =>
    .step (step_passes hρs hafter rfl) (.refl _)
  refine Follows.after_step (step_passes hρs hsave rfl) ?_
  refine Follows.after_step (step_passes hρs hentry rfl) ?_
  refine Follows.after_step (step_passes hρs hstart rfl) ?_
  refine (hx ρs _ _ past hρs hbody rfl (hp.rescuerAt_regionStart hstart)).bind
    fun {o past m} hm => ?_
  cases hm with
  | falls =>
    refine Follows.after_step (step_passes hρs hend rfl) ?_
    refine Follows.after_step (step_passes hρs hresult rfl) ?_
    refine Follows.after_step ((step_goes hρs hjump rfl).trans (hp.goTo_renames hafter)) ?_
    exact Follows.leads (hleave past) (.here .falls)
  | raises =>
    have hrescue : raised prog (rescuer.renames ρs) past = _ := hp.raised_renames hlabel
    refine hrescue ▸ Follows.after_step (step_passes hρs hlabel rfl) ?_
    refine Follows.after_step (step_passes hρs hreceive rfl) ?_
    refine Follows.goOn ?_ fun past => .step (step_passes hρs hresult' rfl) (hleave past)
    exact (hy ρs _ _ past hρs hhandler rfl hcovered).mono le_rfl Ends.of_inHandler
  | exits hexit hcopies hhosts =>
    have houter := hexit.of_inRescue
    cases hexit with
    | breaks | nexts | returns => exact .here (.exits houter hcopies hhosts)

end Protection

end ScopeIR
