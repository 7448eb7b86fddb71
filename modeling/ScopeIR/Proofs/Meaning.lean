import ScopeIR.Proofs.Execution

/-! What structured code means, without lists and labels: it falls through, or it ends in an exit or a
raise, which passes through cleanups until something takes it. -/

namespace ScopeIR

/-- How code ends. -/
inductive Completion where
  | falls
  | breaks
  | nexts
  | returns
  | raises
  deriving DecidableEq

/-- How a method ends with its code. Outside of loops there is nothing to break. -/
def Completion.ending? : Completion → Option Ending
  | .falls => some .fell
  | .returns => some .returned
  | .raises => some .uncaught
  | .breaks | .nexts => none

/-- How code ended, unless it still runs, and what was done. -/
abbrev Result := Option Completion × Deeds

/-- Goes on with the outcome. -/
def Result.bind : Result → (Completion → Deeds → Result) → Result
  | (none, past), _ => (none, past)
  | (some o, past), f => f o past

/-- Goes on where `r` falls through. -/
def Result.andThen (r : Result) (f : Deeds → Result) : Result :=
  r.bind fun
    | .falls, past => f past
    | o, past => (some o, past)

namespace Code

/-- Test and body of a loop take turns, as often as the fuel allows. Both may break out of the loop, and
both may go on to the next test. -/
def turns (test body : Deeds → Result) (goesOn : Deeds → Bool × Deeds) :
    (fuel : Nat) → (testing : Bool) → Deeds → Result
  | 0, _, past => (none, past)
  | fuel + 1, true, past => (test past).bind fun
    | .falls, past =>
      let (goes, past) := goesOn past
      if goes then turns test body goesOn fuel false past else (some .falls, past)
    | .nexts, past => turns test body goesOn fuel true past
    | .breaks, past => (some .falls, past)
    | o, past => (some o, past)
  | fuel + 1, false, past => (body past).bind fun
    | .falls, past | .nexts, past => turns test body goesOn fuel true past
    | .breaks, past => (some .falls, past)
    | o, past => (some o, past)

/-- Runs the code. A cleanup runs once, however its body ends, and the outcome of the body then stands
unless the cleanup raises. A handler runs if its body raises. -/
def run (O : Oracle) (fuel : Nat) : Code → Deeds → Result
  | seq first rest, past => (first.run O fuel past).andThen (rest.run O fuel)
  | call _ type receiver name args given flags, past =>
    let c : Call := .seen ⟨type, none, name, receiver, args, given, flags, false⟩
    let raised := O.raises past c
    (some (if raised then .raises else .falls), .called c raised :: past)
  | ifElse value test yes no, past =>
    let (holds, past) := O.agrees past value.erased test.erased
    if holds then yes.run O fuel past else no.run O fuel past
  | loop condition value body goOn testFirst, past =>
    turns (condition.run O fuel) (body.run O fuel)
      (fun past => O.agrees past value.erased (.boolean goOn)) fuel testFirst past
  | ensure body _ cleanup _, past =>
    (body.run O fuel past).bind fun o past =>
      (cleanup.run O fuel past).andThen fun past => (some o, past)
  | rescue body _ handler _, past =>
    (body.run O fuel past).bind fun
      | .raises, past => handler.run O fuel past
      | o, past => (some o, past)
  | .break _, past => (some .breaks, past)
  | next _, past => (some .nexts, past)
  | .return _, past => (some .returns, past)
  | _, past => (some .falls, past)

/-- No exit leaves the code; in a loop it may leave or go on. -/
def IsInside (inLoop : Bool) : Code → Prop
  | seq first rest => first.IsInside inLoop ∧ rest.IsInside inLoop
  | ifElse _ _ yes no => yes.IsInside inLoop ∧ no.IsInside inLoop
  | loop condition _ body _ _ => condition.IsInside true ∧ body.IsInside true
  | ensure body _ cleanup _ => body.IsInside inLoop ∧ cleanup.IsInside inLoop
  | rescue body _ handler _ => body.IsInside inLoop ∧ handler.IsInside inLoop
  | .break _ | next _ => inLoop
  | .return _ => False
  | _ => True

/-- Made of calls, of the constructs that choose, repeat and protect, and of exits, of which none
leaves a cleanup. -/
def IsControl : Code → Prop
  | done | mark | temp | note _ | call .. | .break _ | next _ | .return _ => True
  | seq first rest => first.IsControl ∧ rest.IsControl
  | ifElse _ _ yes no => yes.IsControl ∧ no.IsControl
  | loop condition _ body _ _ => condition.IsControl ∧ body.IsControl
  | ensure body _ cleanup _ => body.IsControl ∧ cleanup.IsControl ∧ cleanup.IsInside false
  | rescue body _ handler _ => body.IsControl ∧ handler.IsControl
  | _ => False

/-- Control, with instructions in between that go on to the next one. -/
def IsOrderly : Code → Prop
  | done | mark | temp | note _ | call .. | .break _ | next _ | .return _ => True
  | emit i => i.1.effect = .passes ∧ i.1.isLine = false
  | seq first rest => first.IsOrderly ∧ rest.IsOrderly
  | ifElse _ _ yes no => yes.IsOrderly ∧ no.IsOrderly
  | loop condition _ body _ _ => condition.IsOrderly ∧ body.IsOrderly
  | ensure body _ cleanup _ => body.IsOrderly ∧ cleanup.IsOrderly ∧ cleanup.IsInside false
  | rescue body _ handler _ => body.IsOrderly ∧ handler.IsOrderly
  | _ => False

theorem not_isOrderly_of_isMove {c : Code} (h : c.isMove) : ¬ c.IsOrderly := by
  cases c <;> first | exact id | cases h

theorem IsControl.isOrderly {c : Code} (hc : c.IsControl) : c.IsOrderly := by
  induction c with
  | seq _ _ ihFirst ihRest => exact ⟨ihFirst hc.1, ihRest hc.2⟩
  | ifElse _ _ _ _ ihYes ihNo => exact ⟨ihYes hc.1, ihNo hc.2⟩
  | loop _ _ _ _ _ ihCondition ihBody => exact ⟨ihCondition hc.1, ihBody hc.2⟩
  | ensure _ _ _ _ ihBody ihCleanup => exact ⟨ihBody hc.1, ihCleanup hc.2.1, hc.2.2⟩
  | rescue _ _ _ _ ihBody ihHandler => exact ⟨ihBody hc.1, ihHandler hc.2⟩
  | _ => first | exact trivial | exact hc.elim

end Code

/-- The code is in a method, or no exit leaves it but those of the loops around it. -/
def Site.Fits (σ : Site) (c : Code) : Prop := σ.kind = .method ∨ c.IsInside (!σ.loops.isEmpty)

theorem Code.IsInside.mono {c : Code} {inLoop : Bool} (hc : c.IsInside false) : c.IsInside inLoop := by
  induction c with
  | seq _ _ ihFirst ihRest => exact ⟨ihFirst hc.1, ihRest hc.2⟩
  | ifElse _ _ _ _ ihYes ihNo => exact ⟨ihYes hc.1, ihNo hc.2⟩
  | loop => exact hc
  | ensure _ _ _ _ ihBody ihCleanup => exact ⟨ihBody hc.1, ihCleanup hc.2⟩
  | rescue _ _ _ _ ihBody ihHandler => exact ⟨ihBody hc.1, ihHandler hc.2⟩
  | «break» | next => cases hc
  | «return» => exact hc.elim
  | _ => exact trivial

theorem Site.not_fits_block {σ : Site} (hloops : σ.loops = []) (hclosure : σ.kind.isClosure) :
    ¬ (σ.kind = .method ∨ (!σ.loops.isEmpty) = true) := by
  rintro (hkind | hinside)
  · rw [hkind] at hclosure
    cases hclosure
  · rw [hloops] at hinside
    cases hinside

/-- The outcomes of code that no exit leaves. -/
def Completion.IsInside (inLoop : Bool) : Completion → Prop
  | .falls | .raises => True
  | .breaks | .nexts => inLoop
  | .returns => False

/-- If it ended, then as `P` says. -/
def Result.Ends (r : Result) (P : Completion → Prop) : Prop := ∀ o past, r = (some o, past) → P o

namespace Result

variable {r : Result} {P Q : Completion → Prop} {f : Completion → Deeds → Result} {o : Completion}
  {past : Deeds}

theorem ends_some (h : P o) : Result.Ends (some o, past) P := by
  rintro _ _ ⟨⟩
  exact h

theorem ends_none : Result.Ends (none, past) P := fun _ _ h => nomatch h

theorem ends_bind (hr : r.Ends P) (hf : ∀ o past, P o → (f o past).Ends Q) : (r.bind f).Ends Q := by
  obtain ⟨_ | o, past⟩ := r
  · exact ends_none
  · exact hf o past (hr o past rfl)

theorem ends_andThen {f : Deeds → Result} (hr : r.Ends P) (hf : ∀ past, (f past).Ends P) :
    (r.andThen f).Ends P := by
  refine ends_bind hr fun o past ho => ?_
  cases o with
  | falls => exact hf past
  | _ => exact ends_some ho

end Result

namespace Code

variable {O : Oracle} {fuel : Nat} {inLoop : Bool}

theorem ends_turns {test body : Deeds → Result} {goesOn : Deeds → Bool × Deeds}
    (htest : ∀ past, (test past).Ends (·.IsInside true))
    (hbody : ∀ past, (body past).Ends (·.IsInside true)) (testing : Bool) (past : Deeds) :
    (turns test body goesOn fuel testing past).Ends (·.IsInside inLoop) := by
  induction fuel generalizing testing past with
  | zero => exact Result.ends_none
  | succ fuel ih =>
    cases testing with
    | true =>
      refine Result.ends_bind (htest past) fun o past ho => ?_
      cases o with
      | falls =>
        dsimp only
        split
        · exact ih false _
        · exact Result.ends_some trivial
      | nexts => exact ih true past
      | breaks | raises => exact Result.ends_some trivial
      | returns => cases ho
    | false =>
      refine Result.ends_bind (hbody past) fun o past ho => ?_
      cases o with
      | falls | nexts => exact ih true past
      | breaks | raises => exact Result.ends_some trivial
      | returns => cases ho

/-- No exit leaves the code when it runs. -/
theorem ends_run {c : Code} (hc : c.IsInside inLoop) (past : Deeds) :
    (c.run O fuel past).Ends (·.IsInside inLoop) := by
  induction c generalizing inLoop past with
  | seq first rest ihFirst ihRest => exact Result.ends_andThen (ihFirst hc.1 past) (ihRest hc.2)
  | call =>
    refine Result.ends_some ?_
    split <;> exact trivial
  | ifElse value test yes no ihYes ihNo =>
    unfold run
    dsimp only
    split
    · exact ihYes hc.1 _
    · exact ihNo hc.2 _
  | loop condition value body goOn testFirst ihCondition ihBody =>
    exact ends_turns (ihCondition hc.1) (ihBody hc.2) testFirst past
  | ensure body value cleanup unused ihBody ihCleanup =>
    refine Result.ends_bind (ihBody hc.1 past) fun o past ho => ?_
    exact Result.ends_andThen (ihCleanup hc.2 past) fun past => Result.ends_some ho
  | rescue body value handler handled ihBody ihHandler =>
    refine Result.ends_bind (ihBody hc.1 past) fun o past ho => ?_
    cases o with
    | raises => exact ihHandler hc.2 past
    | _ => exact Result.ends_some ho
  | «break» | next => exact Result.ends_some hc
  | «return» => exact hc.elim
  | _ => exact Result.ends_some trivial

end Code

end ScopeIR
