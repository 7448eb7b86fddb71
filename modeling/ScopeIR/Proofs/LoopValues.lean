import ScopeIR.Proofs.Paths

/-! What a loop is left with: nil behind its test, or the value of the break that leaves it. -/

namespace ScopeIR

open Machine

namespace Result

variable {r : Result} {o : Completion} {past' : Deeds}

theorem bind_eq_some_iff {f : Completion → Deeds → Result} : r.bind f = (some o, past') ↔
    ∃ o₁ past, r = (some o₁, past) ∧ f o₁ past = (some o, past') := by
  obtain ⟨_ | o₁, past⟩ := r
  · constructor
    · exact fun h => nomatch h
    · rintro ⟨_, _, ⟨⟩, _⟩
  · constructor
    · exact fun h => ⟨o₁, past, rfl, h⟩
    · rintro ⟨_, _, ⟨⟩, h⟩
      exact h

theorem andThen_eq_some_iff {f : Deeds → Result} : r.andThen f = (some o, past') ↔
    (∃ past, r = (some .falls, past) ∧ f past = (some o, past')) ∨
      o ≠ .falls ∧ r = (some o, past') := by
  rw [andThen, bind_eq_some_iff]
  constructor
  · rintro ⟨o₁, past, rfl, h⟩
    cases o₁ with
    | falls => exact .inl ⟨past, rfl, h⟩
    | _ =>
      cases h
      exact .inr ⟨nofun, rfl⟩
  · rintro (⟨past, rfl, h⟩ | ⟨ho, rfl⟩)
    · exact ⟨_, _, rfl, h⟩
    · refine ⟨_, _, rfl, ?_⟩
      cases o <;> first | rfl | exact absurd rfl ho

end Result

namespace Code

/-- The value of the break that ends the code, if one does. -/
def broke (O : Oracle) (fuel : Nat) : Code → Deeds → Option Operand
  | seq first rest, past =>
    match first.run O fuel past with
    | (some .falls, past) => rest.broke O fuel past
    | _ => first.broke O fuel past
  | ifElse value test yes no, past =>
    let (holds, past) := O.agrees past value.erased test.erased
    if holds then yes.broke O fuel past else no.broke O fuel past
  | ensure body _ _ _, past => body.broke O fuel past
  | rescue body _ handler _, past =>
    match body.run O fuel past with
    | (some .raises, past) => handler.broke O fuel past
    | _ => body.broke O fuel past
  | .break value, _ => some value
  | _, _ => none

/-- The value of the break that ends the turns of a loop, if one does. -/
def lastBreak (test body : Deeds → Result) (ofTest ofBody : Deeds → Option Operand)
    (goesOn : Deeds → Bool × Deeds) : (fuel : Nat) → (testing : Bool) → Deeds → Option Operand
  | 0, _, _ => none
  | fuel + 1, true, past =>
    match test past with
    | (some .falls, past) =>
      let (goes, past) := goesOn past
      if goes then lastBreak test body ofTest ofBody goesOn fuel false past else none
    | (some .nexts, past) => lastBreak test body ofTest ofBody goesOn fuel true past
    | (some .breaks, _) => ofTest past
    | _ => none
  | fuel + 1, false, past =>
    match body past with
    | (some .falls, past) | (some .nexts, past) =>
      lastBreak test body ofTest ofBody goesOn fuel true past
    | (some .breaks, _) => ofBody past
    | _ => none

/-- The value of the break that the loop is left by. There is none if it ends at its test. -/
def leftBy (O : Oracle) (fuel : Nat) : Code → Deeds → Option Operand
  | loop condition value body goOn testFirst, past =>
    lastBreak (condition.run O fuel) (body.run O fuel) (condition.broke O fuel) (body.broke O fuel)
      (fun past => O.agrees past value.erased (.boolean goOn)) fuel testFirst past
  | _, _ => none

/-- Breaks do not get out of the loop that they leave. -/
theorem turns_ne_breaks {test body : Deeds → Result} {goesOn : Deeds → Bool × Deeds} {fuel : Nat}
    {testing : Bool} {past : Deeds} :
    (turns test body goesOn fuel testing past).Ends (· ≠ .breaks) := by
  induction fuel generalizing testing past with
  | zero => exact Result.ends_none
  | succ fuel ih =>
    cases testing with
    | true =>
      refine Result.ends_bind (P := fun _ => True) (fun _ _ _ => trivial) fun o past _ => ?_
      cases o with
      | falls =>
        dsimp only
        split
        · exact ih
        · exact Result.ends_some nofun
      | nexts => exact ih
      | breaks | returns | raises => exact Result.ends_some nofun
    | false =>
      refine Result.ends_bind (P := fun _ => True) (fun _ _ _ => trivial) fun o past _ => ?_
      cases o with
      | falls | nexts => exact ih
      | breaks | returns | raises => exact Result.ends_some nofun

end Code

/-- The machine comes to a break with the value, and behind the bodies on its way to where the value is
copied to the result of the innermost loop. -/
inductive Breaks (O : Oracle) (prog : List Instr) (σ : Site) (value : Operand) (m : Machine)
    (past' : Deeds) : Prop
  | mk {frame : LoopFrame} {inner : Site} {p q : Nat} {past : Deeds} {bs cs : List Instr} :
    σ.loops.head? = some frame → m.Leads O prog (.at p past) →
    Laid inner (.break value) bs → Hosts prog [] p bs → (Machine.at p past).Leads O prog (.at q past') →
    AreCopies (Session.passedEnsures (some frame.id) σ.ensures) cs →
    Hosts prog [] q (cs ++ [.copy frame.result value, .jump frame.loopEnd]) →
    Breaks O prog σ value m past'

namespace Breaks

variable {O : Oracle} {prog : List Instr} {fuel : Nat} {σ : Site} {value : Operand} {m m' : Machine}
  {past' past : Deeds}

theorem after (hm : m.Leads O prog m') (h : Breaks O prog σ value m' past') :
    Breaks O prog σ value m past' := by
  obtain ⟨hhead, hbreak, hlaid, hhosts, hway, hcopies, hend⟩ := h
  exact ⟨hhead, hm.trans hbreak, hlaid, hhosts, hway, hcopies, hend⟩

theorem after_step (hm : step O prog m = m') (h : Breaks O prog σ value m' past') :
    Breaks O prog σ value m past' := h.after ⟨1, hm⟩

theorem of_inRescue {rescuer : Label} (h : Breaks O prog (σ.inRescue rescuer) value m past') :
    Breaks O prog σ value m past' := by
  obtain ⟨hhead, hbreak, hlaid, hhosts, hway, hcopies, hend⟩ := h
  exact ⟨hhead, hbreak, hlaid, hhosts, hway, hcopies, hend⟩

theorem of_inHandler {frame : RescueFrame} (h : Breaks O prog (σ.inHandler frame) value m past') :
    Breaks O prog σ value m past' := by
  obtain ⟨hhead, hbreak, hlaid, hhosts, hway, hcopies, hend⟩ := h
  exact ⟨hhead, hbreak, hlaid, hhosts, hway, hcopies, hend⟩

/-- On the way out of a protected body the cleanup is carried out. -/
theorem of_inEnsure {frame : EnsureFrame} {cleanup : Code} (hp : Runnable prog)
    (hclean : Cleans O prog fuel σ cleanup frame)
    (hloop : frame.innermostLoop = σ.loops.head?.map (·.id))
    (h : Breaks O prog (σ.inEnsure frame) value m past)
    (hrun : cleanup.run O fuel past = (some .falls, past')) : Breaks O prog σ value m past' := by
  obtain ⟨hhead, hbreak, hlaid, hhosts, hway, hcopies, hend⟩ := h
  have hpassed : Session.passedEnsures _ (σ.inEnsure frame).ensures = _ :=
    Site.passedEnsures_inEnsure hloop hhead
  rw [hpassed] at hcopies
  cases hcopies with
  | cons hfirst hrest =>
    rw [List.append_assoc] at hend
    obtain ⟨hfirst', hend⟩ := hosts_append_iff.mp hend
    have hcopy : Follows O prog fuel (.at _ past) _ _ :=
      hclean.copy hp (fun _ hρ => absurd hρ List.not_mem_nil) hfirst hfirst'
    rw [hrun] at hcopy
    obtain ⟨k, hk⟩ := hcopy
    generalize hm : exec O prog k _ = m' at hk
    cases hk with
    | falls => exact ⟨hhead, hbreak, hlaid, hhosts, hway.trans ⟨k, hm⟩, hrest, hend⟩
    | exits hexit => cases hexit

end Breaks

section Breaking

variable {O : Oracle} {prog : List Instr} {fuel p : Nat} {σ : Site} {c : Code} {xs : List Instr}
  {past past' : Deeds}

theorem keepsNames_nil : ∀ ρ ∈ ([] : List Renaming), ρ.KeepsNames :=
  fun _ hρ => absurd hρ List.not_mem_nil

/-- Orderly code at its place that falls through leads to its end. -/
theorem Simulates.leads {q : Nat} (h : Simulates O prog fuel σ c xs) (hhosts : Hosts prog [] p xs)
    (hq : q = p + xs.length) (hrescuer : rescuerAt prog p = σ.rescuer)
    (hrun : c.run O fuel past = (some .falls, past')) :
    (Machine.at p past).Leads O prog (.at q past') := by
  have hfollows := h [] p q past keepsNames_nil hhosts hq hrescuer
  rw [hrun] at hfollows
  obtain ⟨k, hk⟩ := hfollows
  generalize hm : exec O prog k _ = m at hk
  cases hk with
  | falls => exact ⟨k, hm⟩
  | exits hexit => cases hexit

/-- If it raises, it leads to where its rescuer is placed. -/
theorem Simulates.leads_raised {q : Nat} {l : Label} (h : Simulates O prog fuel σ c xs)
    (hp : Runnable prog) (hhosts : Hosts prog [] p xs) (hrescuer : rescuerAt prog p = σ.rescuer)
    (hl : σ.rescuer = l) (hq : prog[q]? = some (.label l))
    (hrun : c.run O fuel past = (some .raises, past')) :
    (Machine.at p past).Leads O prog (.at q past') := by
  have hfollows := h [] p _ past keepsNames_nil hhosts rfl hrescuer
  rw [hrun] at hfollows
  obtain ⟨k, hk⟩ := hfollows
  generalize hm : exec O prog k _ = m at hk
  cases hk with
  | raises =>
    refine ⟨k, hm.trans ?_⟩
    rw [hl]
    exact hp.raised_label hq
  | exits hexit => cases hexit

/-- Wherever the list stands, the code that ends in a break of the loop around it comes to that
break. -/
def ReachesBreaks (O : Oracle) (prog : List Instr) (fuel : Nat) (σ : Site) (c : Code)
    (xs : List Instr) : Prop :=
  ∀ ⦃p : Nat⦄ ⦃past past' : Deeds⦄, Hosts prog [] p xs → rescuerAt prog p = σ.rescuer →
    c.run O fuel past = (some .breaks, past') →
      ∃ w, c.broke O fuel past = some w ∧ Breaks O prog σ w (.at p past) past'

section Constructs

variable {ys cs : List Instr} {body cleanup handler yes no first rest : Code}
  {value test unused handled : Operand}

theorem reachesBreaks_of_ne (h : ∀ past past', c.run O fuel past ≠ (some .breaks, past')) :
    ReachesBreaks O prog fuel σ c xs := fun _ past past' _ _ hrun => absurd hrun (h past past')

variable (hp : Runnable prog)
include hp

theorem reachesBreaks_seq (hx : Simulates O prog fuel σ first xs) (hxs : Balanced xs)
    (hfirst : ReachesBreaks O prog fuel σ first xs) (hrest : ReachesBreaks O prog fuel σ rest ys) :
    ReachesBreaks O prog fuel σ (.seq first rest) (xs ++ ys) := by
  intro p past past' hhosts hrescuer hrun
  obtain ⟨hat, hbehind⟩ := hosts_append_iff.mp hhosts
  obtain ⟨past₁, hrun₁, hrun₂⟩ | ⟨-, hrun₁⟩ := Result.andThen_eq_some_iff.mp hrun
  · obtain ⟨w, hw, hbreaks⟩ := hrest hbehind ((hp.rescuerAt_hosts hat hxs).trans hrescuer) hrun₂
    refine ⟨w, ?_, hbreaks.after (hx.leads hat rfl hrescuer hrun₁)⟩
    rw [Code.broke, hrun₁]
    exact hw
  · obtain ⟨w, hw, hbreaks⟩ := hfirst hat hrescuer hrun₁
    refine ⟨w, ?_, hbreaks⟩
    rw [Code.broke, hrun₁]
    exact hw

theorem reachesBreaks_ifElse {elseLabel endLabel : Label} (hxs : Balanced xs)
    (hyes : ReachesBreaks O prog fuel σ yes xs) (hno : ReachesBreaks O prog fuel σ no ys) :
    ReachesBreaks O prog fuel σ (.ifElse value test yes no)
      (.branchUnlessEqual elseLabel value test :: xs ++
        .jump endLabel :: .label elseLabel :: ys ++ [.label endLabel]) := by
  intro p past past' hhosts hrescuer hrun
  simp only [List.cons_append, List.append_assoc, hosts_cons_iff, hosts_append_iff] at hhosts
  obtain ⟨hbranch, hatYes, hjump, helse, hatNo, -, -⟩ := hhosts
  have hrescuerYes := (hp.rescuerAt_inside hbranch
    (Instr.isInside_of_isMove isMove_branchUnlessEqual)).trans hrescuer
  have hrescuerNo := (hp.rescuerAt_inside helse rfl).trans ((hp.rescuerAt_inside hjump rfl).trans
    ((hp.rescuerAt_hosts hatYes hxs).trans hrescuerYes))
  have hstep : step O prog (.at p past) = _ := step_branchUnlessEqual keepsNames_nil hbranch rfl
  rw [Code.run] at hrun
  rw [Code.broke]
  dsimp only at hrun ⊢
  split at hrun
  · next hholds =>
    rw [if_pos hholds] at hstep ⊢
    obtain ⟨w, hw, hbreaks⟩ := hyes hatYes hrescuerYes hrun
    exact ⟨w, hw, hbreaks.after_step hstep⟩
  · next hholds =>
    rw [if_neg hholds, hp.goTo_renames helse] at hstep
    rw [if_neg hholds]
    obtain ⟨w, hw, hbreaks⟩ := hno hatNo hrescuerNo hrun
    exact ⟨w, hw, (hbreaks.after_step (step_passes keepsNames_nil helse rfl)).after_step hstep⟩

/-- No break gets out of the cleanup, so it is the body that breaks. -/
theorem reachesBreaks_ensure {frame : EnsureFrame} {result exception : Variable}
    (hclean : Cleans O prog fuel σ cleanup frame)
    (hloop : frame.innermostLoop = σ.loops.head?.map (·.id))
    (hbody : ReachesBreaks O prog fuel (σ.inEnsure frame) body xs) :
    ReachesBreaks O prog fuel σ (.ensure body value cleanup unused) (.label frame.regionStart ::
      .regionStart frame.dummyRescue :: xs ++ .regionEnd :: .copy result value :: cs ++
      .jump frame.bodyEnd :: .label frame.dummyRescue :: .receiveException exception ::
      .label frame.bodyStart :: frame.instrs ++ [.raise exception, .label frame.bodyEnd]) := by
  intro p past past' hhosts hrescuer hrun
  simp only [List.cons_append, List.append_assoc, hosts_cons_iff, hosts_append_iff] at hhosts
  obtain ⟨hlabel, hstart, hxs, -⟩ := hhosts
  obtain ⟨o, past₁, hrun₁, hrun₂⟩ := Result.bind_eq_some_iff.mp hrun
  obtain ⟨past₂, hrun₂, hend⟩ | ⟨-, hrun₂⟩ := Result.andThen_eq_some_iff.mp hrun₂
  · cases hend
    obtain ⟨w, hw, hbreaks⟩ := hbody hxs (hp.rescuerAt_regionStart hstart) hrun₁
    refine ⟨w, hw, ?_⟩
    exact ((hbreaks.of_inEnsure hp hclean hloop hrun₂).after_step
      (step_passes keepsNames_nil hstart rfl)).after_step (step_passes keepsNames_nil hlabel rfl)
  · cases Code.ends_run hclean.inside past₁ _ _ hrun₂

theorem reachesBreaks_rescue {frame : RescueFrame} {rescuer after : Label}
    {result exception : Variable} (hx : Simulates O prog fuel (σ.inRescue rescuer) body xs)
    (hxs : Balanced xs) (hbody : ReachesBreaks O prog fuel (σ.inRescue rescuer) body xs)
    (hhandler : ReachesBreaks O prog fuel (σ.inHandler frame) handler ys) :
    ReachesBreaks O prog fuel σ (.rescue body value handler handled)
      (.getGlobal frame.savedException BuildT.currentException :: .label frame.entry ::
        .regionStart rescuer :: xs ++ .regionEnd :: .copy result value :: .jump after ::
        .label rescuer :: .receiveException exception :: ys ++
        [.copy result handled, .label after]) := by
  intro p past past' hhosts hrescuer hrun
  simp only [List.cons_append, List.append_assoc, hosts_cons_iff, hosts_append_iff] at hhosts
  obtain ⟨hsave, hentry, hstart, hatBody, hend, hresult, hjump, hlabel, hreceive, hatHandler, -⟩ := hhosts
  have hopened := (hp.rescuerAt_inside hentry rfl).trans
    ((hp.rescuerAt_inside hsave rfl).trans hrescuer)
  have hclosed := (rescuerAt_region hp hstart hatBody hxs hend).trans hopened
  have hcovered := (hp.rescuerAt_inside hreceive rfl).trans ((hp.rescuerAt_inside hlabel rfl).trans
    ((hp.rescuerAt_inside hjump rfl).trans ((hp.rescuerAt_inside hresult rfl).trans hclosed)))
  have hwithin : rescuerAt prog (p + 1 + 1 + 1) = rescuer := hp.rescuerAt_regionStart hstart
  have henters : (Machine.at p past).Leads O prog (.at (p + 1 + 1 + 1) past) :=
    .step (step_passes keepsNames_nil hsave rfl) (.step (step_passes keepsNames_nil hentry rfl)
      (.step (step_passes keepsNames_nil hstart rfl) (.refl _)))
  obtain ⟨o, past₁, hrun₁, hrun₂⟩ := Result.bind_eq_some_iff.mp hrun
  cases o with
  | raises =>
    have hraised := hx.leads_raised hp hatBody hwithin rfl hlabel hrun₁
    obtain ⟨w, hw, hbreaks⟩ := hhandler hatHandler hcovered hrun₂
    have hreceives := hbreaks.of_inHandler.after_step (step_passes keepsNames_nil hreceive rfl)
    have hrescued := hreceives.after_step (step_passes keepsNames_nil hlabel rfl)
    refine ⟨w, ?_, (hrescued.after hraised).after henters⟩
    rw [Code.broke, hrun₁]
    exact hw
  | breaks =>
    cases hrun₂
    obtain ⟨w, hw, hbreaks⟩ := hbody hatBody hwithin hrun₁
    refine ⟨w, ?_, hbreaks.of_inRescue.after henters⟩
    rw [Code.broke, hrun₁]
    exact hw
  | falls | nexts | returns => cases hrun₂

end Constructs

/-- Orderly code reaches its breaks. -/
theorem Laid.breaks (hp : Runnable prog) (h : Laid σ c xs) (hc : c.IsOrderly)
    (hfit : σ.Fits c) (hσ : ∀ f ∈ σ.ensures, Balanced f.instrs) :
    ReachesBreaks O prog fuel σ c xs := by
  induction h with
  | done | mark | temp | note | emit =>
    exact reachesBreaks_of_ne fun _ _ hrun => by cases hrun
  | call =>
    refine reachesBreaks_of_ne fun _ _ hrun => ?_
    rw [Code.run] at hrun
    split at hrun <;> cases hrun
  | redoLoop | redoBlock | retry => exact hc.elim
  | move hmove => exact absurd hc (Code.not_isOrderly_of_isMove hmove)
  | returnTransfer | returnPlain | returnCopies | nextLoop | nextBlock =>
    exact reachesBreaks_of_ne fun _ _ hrun => by cases hrun
  | breakBlock hloops hclosure => exact absurd hfit (Site.not_fits_block hloops hclosure)
  | @breakLoop σ value frame cs hhead hcopies =>
    intro p past past' hhosts _ hrun
    cases hrun
    exact ⟨value, rfl, .mk hhead (.refl _) (.breakLoop hhead hcopies) hhosts (.refl _) hcopies hhosts⟩
  | loopFirst | loopLast => exact reachesBreaks_of_ne fun _ _ hrun => Code.turns_ne_breaks _ _ hrun rfl
  | seq hx _ ihFirst ihRest =>
    exact reachesBreaks_seq hp (hx.simulates hp hc.1 (Or.imp_right And.left hfit) hσ)
      (hx.balanced hσ) (ihFirst hc.1 (Or.imp_right And.left hfit) hσ)
      (ihRest hc.2 (Or.imp_right And.right hfit) hσ)
  | ifElse hx _ ihYes ihNo =>
    exact reachesBreaks_ifElse hp (hx.balanced hσ) (ihYes hc.1 (Or.imp_right And.left hfit) hσ)
      (ihNo hc.2 (Or.imp_right And.right hfit) hσ)
  | @ensure σ body cleanup _ _ frame _ _ _ _ hframe hloop hcleanup _ _ _ ihBody =>
    have hinstrs := hcleanup.balanced hσ
    have hclean : Cleans O prog fuel σ cleanup frame := {
      rescuer := hframe
      balanced := hinstrs
      inside := hc.2.2
      simulates := hcleanup.simulates hp hc.2.1 (Or.imp_right And.right hfit) hσ
      idle := fun hnone => hcleanup.idle hnone hc.2.1 (Or.imp_right And.right hfit) }
    have hensures := (List.forall_mem_cons (p := fun f : EnsureFrame => Balanced f.instrs)).mpr
      ⟨hinstrs, hσ⟩
    exact reachesBreaks_ensure hp hclean hloop (ihBody hc.1 (Or.imp_right And.left hfit) hensures)
  | rescue hx _ ihBody ihHandler =>
    exact reachesBreaks_rescue hp (hx.simulates hp hc.1 (Or.imp_right And.left hfit) hσ)
      (hx.balanced hσ) (ihBody hc.1 (Or.imp_right And.left hfit) hσ)
      (ihHandler hc.2 (Or.imp_right And.right hfit) hσ)

end Breaking

/-- The machine comes to where nil is stored for the loop, or to a break of it. -/
inductive Leaves (O : Oracle) (prog : List Instr) (σ : Site) (frame : LoopFrame) (stop : Nat)
    (m : Machine) (past' : Deeds) : Option Operand → Prop
  | done : m.Leads O prog (.at stop past') → Leaves O prog σ frame stop m past' none
  | broken {w : Operand} : Breaks O prog (σ.inLoop frame) w m past' →
    Leaves O prog σ frame stop m past' (some w)

section Leaving

variable {O : Oracle} {prog : List Instr} {fuel n p test body stop : Nat} {σ : Site}
  {frame : LoopFrame} {goesOn : Deeds → Bool × Deeds} {testFirst : Bool} {m m' : Machine}
  {past past' : Deeds} {left : Option Operand} {onTest onBody : Code} {xs ys : List Instr}

theorem Leaves.after (hm : m.Leads O prog m') (h : Leaves O prog σ frame stop m' past' left) :
    Leaves O prog σ frame stop m past' left := by
  cases h with
  | done h => exact .done (hm.trans h)
  | broken h => exact .broken (h.after hm)

/-- Code in a loop that goes on to the next turn leads to the test. -/
theorem Rounds.leads_of_simulates {choice again out q : Nat}
    (h : Rounds O prog σ [] frame goesOn test choice body again out)
    (hx : Simulates O prog fuel (σ.inLoop frame) onTest xs) (hhosts : Hosts prog [] q xs)
    (hrescuer : rescuerAt prog q = σ.rescuer) (hrun : onTest.run O fuel past = (some .nexts, past')) :
    (Machine.at q past).Leads O prog (.at test past') := by
  have hfollows := hx [] q _ past keepsNames_nil hhosts rfl hrescuer
  rw [hrun] at hfollows
  obtain ⟨k, hk⟩ := hfollows
  exact Machine.Leads.trans ⟨k, rfl⟩ (h.leads_of_nexts hk)

namespace LoopAt

variable (h : LoopAt O prog σ [] frame goesOn testFirst p test body stop xs ys)
  (hx : Simulates O prog fuel (σ.inLoop frame) onTest xs)
  (hy : Simulates O prog fuel (σ.inLoop frame) onBody ys)
  (hxBreaks : ReachesBreaks O prog fuel (σ.inLoop frame) onTest xs)
  (hyBreaks : ReachesBreaks O prog fuel (σ.inLoop frame) onBody ys)

include h hx hy hxBreaks hyBreaks

/-- On the turns that are left. -/
theorem leaves_turns {testing : Bool} (hrun : Code.turns (onTest.run O fuel) (onBody.run O fuel) goesOn n
    testing past = (some .falls, past')) :
    Leaves O prog σ frame stop (.at (if testing then test else body) past) past'
      (Code.lastBreak (onTest.run O fuel) (onBody.run O fuel) (onTest.broke O fuel)
        (onBody.broke O fuel) goesOn n testing past) := by
  induction n generalizing testing past with
  | zero => cases hrun
  | succ n ih =>
    cases testing with
    | true =>
      have htests : (Machine.at test past).Leads O prog (.at (test + 1) past) := ⟨1, h.tests past⟩
      obtain ⟨o, past₁, hrun₁, hrun⟩ := Result.bind_eq_some_iff.mp hrun
      rw [Code.lastBreak, hrun₁]
      cases o with
      | falls =>
        have hend := htests.trans (hx.leads h.condition rfl h.overTest hrun₁)
        have hchoice := h.chooses past₁
        have hstops := h.stops past₁
        dsimp only at hrun ⊢
        cases hgoes : (goesOn past₁).1 with
        | true =>
          rw [hgoes] at hrun hchoice
          exact (ih hrun).after (hend.trans hchoice)
        | false =>
          rw [hgoes] at hrun
          cases hrun
          exact .done (hend.trans (hstops hgoes))
      | nexts =>
        have hnext := h.toRounds.leads_of_simulates hx h.condition h.overTest hrun₁
        exact (ih hrun).after (htests.trans hnext)
      | breaks =>
        cases hrun
        obtain ⟨w, hw, hbreaks⟩ := hxBreaks h.condition h.overTest hrun₁
        dsimp only
        rw [hw]
        exact .broken (hbreaks.after htests)
      | returns | raises => cases hrun
    | false =>
      have hbegins : (Machine.at body past).Leads O prog (.at (body + 2) past) :=
        .step (h.polls past) (.step (h.begins past) (.refl _))
      obtain ⟨o, past₁, hrun₁, hrun⟩ := Result.bind_eq_some_iff.mp hrun
      rw [Code.lastBreak, hrun₁]
      cases o with
      | falls =>
        have hend := (hbegins.trans (hy.leads h.code rfl h.overBody hrun₁)).trans (h.repeats past₁)
        exact (ih hrun).after hend
      | nexts =>
        have hnext := h.toRounds.leads_of_simulates hy h.code h.overBody hrun₁
        exact (ih hrun).after (hbegins.trans hnext)
      | breaks =>
        cases hrun
        obtain ⟨w, hw, hbreaks⟩ := hyBreaks h.code h.overBody hrun₁
        dsimp only
        rw [hw]
        exact .broken (hbreaks.after hbegins)
      | returns | raises => cases hrun

end LoopAt

end Leaving

end ScopeIR
