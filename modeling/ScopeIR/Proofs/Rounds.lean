import ScopeIR.Proofs.Cleanups

/-! Loops go round in the list as they do in the code: each test and each body takes its turn, and an
exit goes to the end of the round or of the loop. -/

namespace ScopeIR

open Machine

/-- A loop in the list. Tests stand between `test` and `choice`, bodies between `body` and `again`, and
it is left at `out`. -/
structure Rounds (O : Oracle) (prog : List Instr) (σ : Site) (ρs : List Renaming) (frame : LoopFrame)
    (goesOn : Deeds → Bool × Deeds) (test choice body again out : Nat) : Prop where
  ensures : ∀ f ∈ σ.ensures, f.innermostLoop ≠ some frame.id
  names : ∀ ρ ∈ ρs, ρ.KeepsNames
  chooses (past : Deeds) : (Machine.at choice past).Leads O prog
    (.at (if (goesOn past).1 then body else out) (goesOn past).2)
  repeats (past : Deeds) : (Machine.at again past).Leads O prog (.at test past)
  nexts (past : Deeds) : (goTo prog (frame.iterEnd.renames ρs) past).Leads O prog (.at test past)
  breaks (past : Deeds) : (goTo prog (frame.loopEnd.renames ρs) past).Leads O prog (.at out past)

/-- It takes a step, and does from there what the result says. -/
def Turns (O : Oracle) (prog : List Instr) (n : Nat) (m : Machine) (r : Result)
    (Q : Completion → Deeds → Machine → Prop) : Prop :=
  Follows O prog n (step O prog m) r Q

section Loops

variable {O : Oracle} {prog : List Instr} {fuel n k p q : Nat} {σ : Site} {ρs : List Renaming}
  {frame : LoopFrame} {goesOn : Deeds → Bool × Deeds} {test choice body again out : Nat}
  {m m' : Machine} {r : Result} {o : Completion} {past : Deeds} {xs ys : List Instr}

theorem Follows.tick {Q : Completion → Deeds → Machine → Prop}
    (h : Follows O prog n (step O prog m) r Q) : Follows O prog (n + 1) m r Q := by
  rw [Nat.add_comm]
  exact h.after_ticks (k := 1) rfl

namespace Rounds

variable (h : Rounds O prog σ ρs frame goesOn test choice body again out)

include h

/-- No cleanup stands between the loop and what leaves it. -/
theorem copies_eq_nil {cs : List Instr}
    (hcs : AreCopies (Session.passedEnsures (some frame.id) σ.ensures) cs) : cs = [] := by
  have hnone : Session.passedEnsures (some frame.id) σ.ensures = [] := by
    have hensures := h.ensures
    cases hframes : σ.ensures with
    | nil => rfl
    | cons f fs =>
      rw [hframes] at hensures
      exact List.takeWhile_cons_of_neg
        (p := fun f : EnsureFrame => f.innermostLoop = some frame.id)
        (by simpa only [decide_eq_true_eq] using hensures f List.mem_cons_self)
  rw [hnone] at hcs
  cases hcs
  rfl

theorem leads_of_breaks (hm : Ends prog (σ.inLoop frame) ρs q .breaks past m) :
    m.Leads O prog (.at out past) := by
  cases hm with
  | exits hexit hcopies hhosts =>
    cases hexit with
    | breaks hhead =>
      obtain rfl := Option.some.inj hhead
      obtain rfl := h.copies_eq_nil hcopies
      obtain ⟨hcopy, hhosts⟩ := hosts_cons_iff.mp hhosts
      obtain ⟨hjump, -⟩ := hosts_cons_iff.mp hhosts
      exact .step (step_passes h.names hcopy rfl)
        (.step (step_goes h.names hjump rfl) (h.breaks past))

theorem leads_of_nexts (hm : Ends prog (σ.inLoop frame) ρs q .nexts past m) :
    m.Leads O prog (.at test past) := by
  cases hm with
  | exits hexit hcopies hhosts =>
    cases hexit with
    | nexts hhead =>
      obtain rfl := Option.some.inj hhead
      obtain rfl := h.copies_eq_nil hcopies
      obtain ⟨hjump, -⟩ := hosts_cons_iff.mp hhosts
      exact .step (step_goes h.names hjump rfl) (h.nexts past)

omit h in
theorem ends_of_returns (hm : Ends prog (σ.inLoop frame) ρs q .returns past m) :
    Ends prog σ ρs out .returns past m := by
  cases hm with
  | exits hexit hcopies hhosts =>
    cases hexit with
    | returns => exact .exits .returns hcopies hhosts

omit h in
theorem ends_of_raises (hm : Ends prog (σ.inLoop frame) ρs q .raises past m) :
    Ends prog σ ρs out .raises past m := by
  cases hm with
  | raises => exact .raises
  | exits hexit => cases hexit

/-- Every turn takes a step, so that the fuel of the rounds is used up in time. -/
theorem follows {onTest onBody : Deeds → Result} (hn : n ≤ fuel)
    (htest : ∀ past, Turns O prog fuel (.at test past) (onTest past)
      (Ends prog (σ.inLoop frame) ρs choice))
    (hbody : ∀ past, Turns O prog fuel (.at body past) (onBody past)
      (Ends prog (σ.inLoop frame) ρs again)) (testing : Bool) (past : Deeds) :
    Follows O prog n (.at (if testing then test else body) past)
      (Code.turns onTest onBody goesOn n testing past) (Ends prog σ ρs out) := by
  -- on the turns that are left, of which none needs more fuel than there is
  induction n generalizing testing past with
  | zero => exact ⟨0, _, le_rfl, rfl⟩
  | succ n ih =>
    have ih := fun testing => ih (Nat.le_of_succ_le hn) testing
    cases testing with
    | true =>
      rw [Code.turns]
      refine Follows.tick ?_
      refine ((htest past).mono (Nat.le_of_succ_le hn) id).bind fun {o past m} hm => ?_
      cases o with
      | falls =>
        cases hm with
        | falls =>
          refine Follows.leads (h.chooses past) ?_
          dsimp only
          split
          · exact ih false _
          · exact .here .falls
        | exits hexit => cases hexit
      | nexts => exact Follows.leads (h.leads_of_nexts hm) (ih true past)
      | breaks => exact Follows.leads (h.leads_of_breaks hm) (.here .falls)
      | returns => exact .here (ends_of_returns hm)
      | raises => exact .here (ends_of_raises hm)
    | false =>
      rw [Code.turns]
      refine Follows.tick ?_
      refine ((hbody past).mono (Nat.le_of_succ_le hn) id).bind fun {o past m} hm => ?_
      cases o with
      | falls =>
        cases hm with
        | falls => exact Follows.leads (h.repeats past) (ih true past)
        | exits hexit => cases hexit
      | nexts => exact Follows.leads (h.leads_of_nexts hm) (ih true past)
      | breaks => exact Follows.leads (h.leads_of_breaks hm) (.here .falls)
      | returns => exact .here (ends_of_returns hm)
      | raises => exact .here (ends_of_raises hm)

end Rounds

theorem Oracle.agrees_not {O : Oracle} {past : Deeds} {value : Operand} {b : Bool} :
    O.agrees past value (.boolean !b) =
      (!(O.agrees past value (.boolean b)).1, (O.agrees past value (.boolean b)).2) := by
  change ((O.truth past value).1 == !b, _) = (!((O.truth past value).1 == b), _)
  cases (O.truth past value).1 <;> cases b <;> rfl

theorem Machine.Leads.trans {m'' : Machine} (hm : m.Leads O prog m') (h : m'.Leads O prog m'') :
    m.Leads O prog m'' := by
  obtain ⟨n, rfl⟩ := hm
  obtain ⟨k, h⟩ := h
  exact ⟨n + k, by rw [exec_add, h]⟩

/-- A loop in the list, entered at `p`: its tests, which are `xs`, and its bodies, which are `ys`, each
behind what every turn starts with, and at `stop` what stores nil when a test has ended it. -/
structure LoopAt (O : Oracle) (prog : List Instr) (σ : Site) (ρs : List Renaming) (frame : LoopFrame)
    (goesOn : Deeds → Bool × Deeds) (testFirst : Bool) (p test body stop : Nat)
    (xs ys : List Instr) : Prop extends
    Rounds O prog σ ρs frame goesOn test (test + 1 + xs.length) body (body + 2 + ys.length)
      (stop + 2) where
  enters (past : Deeds) : (Machine.at p past).Leads O prog (.at (if testFirst then test else body) past)
  tests (past : Deeds) : step O prog (.at test past) = .at (test + 1) past
  condition : Hosts prog ρs (test + 1) xs
  overTest : rescuerAt prog (test + 1) = σ.rescuer.renames ρs
  polls (past : Deeds) : step O prog (.at body past) = .at (body + 1) past
  begins (past : Deeds) : step O prog (.at (body + 1) past) = .at (body + 2) past
  code : Hosts prog ρs (body + 2) ys
  overBody : rescuerAt prog (body + 2) = σ.rescuer.renames ρs
  result : Hosts prog ρs stop [.copy frame.result .nil, .label frame.loopEnd]
  stops (past : Deeds) : (goesOn past).1 = false →
    (Machine.at (test + 1 + xs.length) past).Leads O prog (.at stop (goesOn past).2)

namespace LoopAt

variable {testFirst : Bool} {stop : Nat} {onTest onBody : Code}
  (h : LoopAt O prog σ ρs frame goesOn testFirst p test body stop xs ys)

include h

theorem turns_test (hx : Simulates O prog fuel (σ.inLoop frame) onTest xs) (past : Deeds) :
    Turns O prog fuel (.at test past) (onTest.run O fuel past)
      (Ends prog (σ.inLoop frame) ρs (test + 1 + xs.length)) := by
  rw [Turns, h.tests]
  exact hx ρs _ _ past h.names h.condition rfl h.overTest

theorem turns_body (hy : Simulates O prog fuel (σ.inLoop frame) onBody ys) (past : Deeds) :
    Turns O prog fuel (.at body past) (onBody.run O fuel past)
      (Ends prog (σ.inLoop frame) ρs (body + 2 + ys.length)) := by
  rw [Turns, h.polls]
  exact Follows.after_step (h.begins past) (hy ρs _ _ past h.names h.code rfl h.overBody)

theorem follows_turns (hx : Simulates O prog fuel (σ.inLoop frame) onTest xs)
    (hy : Simulates O prog fuel (σ.inLoop frame) onBody ys) (past : Deeds) :
    Follows O prog fuel (.at p past)
      (Code.turns (onTest.run O fuel) (onBody.run O fuel) goesOn fuel testFirst past)
      (Ends prog σ ρs (stop + 2)) :=
  .leads (h.enters past)
    (h.toRounds.follows le_rfl (h.turns_test hx) (h.turns_body hy) testFirst past)

end LoopAt

section Laying

variable {value : Operand} {goOn : Bool} {setResult : Label} {i : Instr}

variable (hp : Runnable prog) (hensures : ∀ f ∈ σ.ensures, f.innermostLoop ≠ some frame.id)
  (hρs : ∀ ρ ∈ ρs, ρ.KeepsNames) (hrescuer : rescuerAt prog p = σ.rescuer.renames ρs)

include hp hensures hρs hrescuer

theorem loopAt_loopFirst (hi : Instr.branchIf? value (.boolean !goOn) setResult = some i)
    (hxs : Balanced xs) (hhosts : Hosts prog ρs p (.label frame.loopStart :: xs ++
      i :: .label frame.iterStart :: .threadPoll :: ys ++
      [.label frame.iterEnd, .jump frame.loopStart, .label setResult, .copy frame.result .nil,
        .label frame.loopEnd])) :
    LoopAt O prog σ ρs frame (fun past => O.agrees past value.erased (.boolean goOn)) true p p
      (p + 1 + xs.length + 1) (p + 1 + xs.length + 1 + 2 + ys.length + 3) xs ys := by
  simp only [List.cons_append, List.append_assoc, hosts_cons_iff, hosts_append_iff] at hhosts
  obtain ⟨hstart, hcondition, hbranch, hiterStart, hpoll, hcode, hiterEnd, hjump, hset, hresult, hend,
    hnil⟩ := hhosts
  have hbefore := (hp.rescuerAt_inside hstart rfl).trans hrescuer
  have hchoice := (hp.rescuerAt_hosts hcondition hxs).trans hbefore
  have hwithin := (hp.rescuerAt_inside hpoll rfl).trans ((hp.rescuerAt_inside hiterStart rfl).trans
    ((hp.rescuerAt_inside hbranch (Instr.isInside_of_isMove (isMove_of_branchIf hi))).trans hchoice))
  have hagain : ∀ past, (Machine.at _ past).Leads O prog (.at _ past) := fun past =>
    .step (step_passes hρs hiterEnd rfl)
      (.step ((step_goes hρs hjump rfl).trans (hp.goTo_renames hstart)) (.refl _))
  have hdone : ∀ past, (goTo prog (setResult.renames ρs) past).Leads O prog
      (.at (p + 1 + xs.length + 1 + 2 + ys.length + 3) past) := by
    intro past
    rw [hp.goTo_renames hset]
    exact .step (step_passes hρs hset rfl) (.refl _)
  have hbranches : ∀ past, step O prog (.at _ past) = _ := fun past =>
    step_branchIf hρs hbranch hi
  exact {
    ensures := hensures
    names := hρs
    enters := fun _ => .refl _
    tests := fun _ => step_passes hρs hstart rfl
    condition := hcondition
    overTest := hbefore
    polls := fun _ => step_passes hρs hiterStart rfl
    begins := fun _ => step_passes hρs hpoll rfl
    code := hcode
    overBody := hwithin
    result := hosts_cons_iff.mpr ⟨hresult, hosts_cons_iff.mpr ⟨hend, hnil⟩⟩
    repeats := hagain
    nexts past := by rw [hp.goTo_renames hiterEnd]; exact hagain past
    breaks past := by
      rw [hp.goTo_renames hend]
      exact .step (step_passes hρs hend rfl) (.refl _)
    chooses past := by
      refine .step (hbranches past) ?_
      rw [Oracle.agrees_not]
      cases (O.agrees past value.erased (.boolean goOn)).1 with
      | true => exact .refl _
      | false =>
        exact (hdone _).trans (.step (step_passes hρs hresult rfl)
          (.step (step_passes hρs hend rfl) (.refl _)))
    stops past hstops := by
      refine .step (hbranches past) ?_
      rw [Oracle.agrees_not, hstops]
      exact hdone _ }

theorem loopAt_loopLast (hi : Instr.branchIf? value (.boolean goOn) frame.iterStart = some i)
    (hys : Balanced ys) (hhosts : Hosts prog ρs p (.label frame.loopStart ::
      .label frame.iterStart :: .threadPoll :: ys ++ .label frame.iterEnd :: xs ++
      [i, .label setResult, .copy frame.result .nil, .label frame.loopEnd])) :
    LoopAt O prog σ ρs frame (fun past => O.agrees past value.erased (.boolean goOn)) false p
      (p + 1 + 2 + ys.length) (p + 1) (p + 1 + 2 + ys.length + 1 + xs.length + 2) xs ys := by
  simp only [List.cons_append, List.append_assoc, hosts_cons_iff, hosts_append_iff] at hhosts
  obtain ⟨hstart, hiterStart, hpoll, hcode, hiterEnd, hcondition, hbranch, hset, hresult, hend,
    hnil⟩ := hhosts
  have hwithin := (hp.rescuerAt_inside hpoll rfl).trans ((hp.rescuerAt_inside hiterStart rfl).trans
    ((hp.rescuerAt_inside hstart rfl).trans hrescuer))
  have hbefore := (hp.rescuerAt_inside hiterEnd rfl).trans
    ((hp.rescuerAt_hosts hcode hys).trans hwithin)
  have hbranches : ∀ past, step O prog (.at _ past) = _ := fun past =>
    step_branchIf hρs hbranch hi
  have hset : ∀ past, step O prog (.at _ past) = .at _ past := fun past => step_passes hρs hset rfl
  exact {
    ensures := hensures
    names := hρs
    enters := fun past => .step (step_passes hρs hstart rfl) (.refl _)
    tests := fun _ => step_passes hρs hiterEnd rfl
    condition := hcondition
    overTest := hbefore
    polls := fun _ => step_passes hρs hiterStart rfl
    begins := fun _ => step_passes hρs hpoll rfl
    code := hcode
    overBody := hwithin
    result := hosts_cons_iff.mpr ⟨hresult, hosts_cons_iff.mpr ⟨hend, hnil⟩⟩
    repeats := fun _ => .refl _
    nexts past := by rw [hp.goTo_renames hiterEnd]; exact .refl _
    breaks past := by
      rw [hp.goTo_renames hend]
      exact .step (step_passes hρs hend rfl) (.refl _)
    chooses past := by
      refine .step (hbranches past) ?_
      cases (O.agrees past value.erased (.boolean goOn)).1 with
      | true =>
        rw [if_pos rfl, if_pos rfl, hp.goTo_renames hiterStart]
        exact .refl _
      | false =>
        exact .step (hset _) (.step (step_passes hρs hresult rfl)
          (.step (step_passes hρs hend rfl) (.refl _)))
    stops past hstops := by
      refine .step (hbranches past) ?_
      rw [hstops]
      exact .step (hset _) (.refl _) }

end Laying

variable (hp : Runnable prog)

include hp

theorem simulates_loopFirst {condition code : Code} {value : Operand} {goOn : Bool}
    {setResult : Label} {i : Instr} (hensures : ∀ f ∈ σ.ensures, f.innermostLoop ≠ some frame.id)
    (hi : Instr.branchIf? value (.boolean !goOn) setResult = some i)
    (hx : Simulates O prog fuel (σ.inLoop frame) condition xs) (hxs : Balanced xs)
    (hy : Simulates O prog fuel (σ.inLoop frame) code ys) :
    Simulates O prog fuel σ (.loop condition value code goOn true) (.label frame.loopStart :: xs ++
      i :: .label frame.iterStart :: .threadPoll :: ys ++
      [.label frame.iterEnd, .jump frame.loopStart, .label setResult, .copy frame.result .nil,
        .label frame.loopEnd]) := by
  intro ρs p q past hρs hhosts hq hrescuer
  have hloop := loopAt_loopFirst (O := O) hp hensures hρs hrescuer hi hxs hhosts
  obtain rfl : q = p + 1 + xs.length + 1 + 2 + ys.length + 3 + 2 := by
    simp only [hq, List.cons_append, List.length_cons, List.length_append, List.length_nil]
    omega
  exact hloop.follows_turns hx hy past

theorem simulates_loopLast {condition code : Code} {value : Operand} {goOn : Bool}
    {setResult : Label} {i : Instr} (hensures : ∀ f ∈ σ.ensures, f.innermostLoop ≠ some frame.id)
    (hi : Instr.branchIf? value (.boolean goOn) frame.iterStart = some i)
    (hx : Simulates O prog fuel (σ.inLoop frame) code xs) (hxs : Balanced xs)
    (hy : Simulates O prog fuel (σ.inLoop frame) condition ys) :
    Simulates O prog fuel σ (.loop condition value code goOn false) (.label frame.loopStart ::
      .label frame.iterStart :: .threadPoll :: xs ++ .label frame.iterEnd :: ys ++
      [i, .label setResult, .copy frame.result .nil, .label frame.loopEnd]) := by
  intro ρs p q past hρs hhosts hq hrescuer
  have hloop := loopAt_loopLast (O := O) hp hensures hρs hrescuer hi hxs hhosts
  obtain rfl : q = p + 1 + 2 + xs.length + 1 + ys.length + 2 + 2 := by
    simp only [hq, List.cons_append, List.length_cons, List.length_append, List.length_nil]
    omega
  exact hloop.follows_turns hy hx past

end Loops

end ScopeIR
