import ScopeIR.Proofs.Layout

/-! Where the parts of a construct stand in its list: what is in front of them and behind them, and the
label that covers them there. -/

namespace ScopeIR

/-- In `zs` stands `xs` between those two. There `r'` covers it, if `r` covers the whole. -/
structure Surrounds (r r' : Label) (front back xs zs : List Instr) : Prop where
  eq : zs = front ++ xs ++ back
  covers : ∃ opened, regions [] front = some opened ∧ opened.headD r = r'

namespace Surrounds

variable {r r' r'' l top bottom after rescuer : Label} {value test handled : Operand} {i : Instr}
  {result exception : Variable} {front front' back back' xs ys zs cs : List Instr}

theorem trans (h : Surrounds r r' front back ys zs) (h' : Surrounds r' r'' front' back' xs ys) :
    Surrounds r r'' (front ++ front') (back' ++ back) xs zs := by
  obtain ⟨rfl, opened, hfront, rfl⟩ := h
  obtain ⟨rfl, opened', hfront', rfl⟩ := h'
  refine ⟨by simp only [List.append_assoc], opened' ++ opened, ?_, ?_⟩
  · rw [regions_append, hfront, Option.bind_some]
    exact regions_outer hfront'
  · cases opened' <;> rfl

/-- Where the same regions are open as around it. -/
theorem behind (hzs : zs = front ++ xs ++ back) (hfront : Balanced front) :
    Surrounds r r front back xs zs := ⟨hzs, [], hfront, rfl⟩

theorem seq_first : Surrounds r r [] ys xs (xs ++ ys) := .behind rfl .nil

theorem seq_rest (hx : Balanced xs) : Surrounds r r xs [] ys (xs ++ ys) := .behind (by simp) hx

theorem ifElse_yes :
    Surrounds r r [.branchUnlessEqual l value test]
      (.jump after :: .label l :: ys ++ [.label after]) xs
      (.branchUnlessEqual l value test :: xs ++ .jump after :: .label l :: ys ++ [.label after]) :=
  .behind (by simp) (.cons (Instr.isInside_of_isMove isMove_branchUnlessEqual) .nil)

theorem ifElse_no (hx : Balanced xs) :
    Surrounds r r (.branchUnlessEqual l value test :: xs ++ [.jump after, .label l]) [.label after] ys
      (.branchUnlessEqual l value test :: xs ++ .jump after :: .label l :: ys ++ [.label after]) :=
  .behind (by simp) (.append (hx.cons (Instr.isInside_of_isMove isMove_branchUnlessEqual)) rfl)

theorem ifNot_body (hi : Instr.branchIf? value test after = some i) :
    Surrounds r r [i] [.label after] xs (i :: xs ++ [.label after]) :=
  .behind (by simp) (.cons (Instr.isInside_of_isMove (isMove_of_branchIf hi)) .nil)

section ForLoops

theorem forLoop_test :
    Surrounds r r [.label top] (ys ++ .label bottom :: zs ++ [.jump top, .label after]) xs
      (.label top :: xs ++ ys ++ .label bottom :: zs ++ [.jump top, .label after]) :=
  .behind (by simp) rfl

theorem forLoop_body (hx : Balanced xs) :
    Surrounds r r (.label top :: xs) (.label bottom :: zs ++ [.jump top, .label after]) ys
      (.label top :: xs ++ ys ++ .label bottom :: zs ++ [.jump top, .label after]) :=
  .behind (by simp) (hx.cons rfl)

theorem forLoop_increment (hx : Balanced xs) (hy : Balanced ys) :
    Surrounds r r (.label top :: xs ++ ys ++ [.label bottom]) [.jump top, .label after] zs
      (.label top :: xs ++ ys ++ .label bottom :: zs ++ [.jump top, .label after]) :=
  .behind (by simp) (((hx.cons rfl).append hy).append rfl)

end ForLoops

section Loops

variable {frame : LoopFrame}

theorem loopFirst_condition :
    Surrounds r r [.label frame.loopStart] (i :: .label frame.iterStart :: .threadPoll :: ys ++
        [.label frame.iterEnd, .jump frame.loopStart, .label l, .copy frame.result .nil,
          .label frame.loopEnd]) xs
      (.label frame.loopStart :: xs ++ i :: .label frame.iterStart :: .threadPoll :: ys ++
        [.label frame.iterEnd, .jump frame.loopStart, .label l, .copy frame.result .nil,
          .label frame.loopEnd]) :=
  .behind (by simp) rfl

theorem loopFirst_body (hi : Instr.branchIf? value test l = some i) (hx : Balanced xs) :
    Surrounds r r (.label frame.loopStart :: xs ++ [i, .label frame.iterStart, .threadPoll])
      [.label frame.iterEnd, .jump frame.loopStart, .label l, .copy frame.result .nil,
        .label frame.loopEnd] ys
      (.label frame.loopStart :: xs ++ i :: .label frame.iterStart :: .threadPoll :: ys ++
        [.label frame.iterEnd, .jump frame.loopStart, .label l, .copy frame.result .nil,
          .label frame.loopEnd]) := by
  refine .behind (by simp) ((hx.cons rfl).append ?_)
  exact .cons (Instr.isInside_of_isMove (isMove_of_branchIf hi)) rfl

theorem loopLast_body :
    Surrounds r r [.label frame.loopStart, .label frame.iterStart, .threadPoll]
      (.label frame.iterEnd :: ys ++ [i, .label l, .copy frame.result .nil, .label frame.loopEnd]) xs
      (.label frame.loopStart :: .label frame.iterStart :: .threadPoll :: xs ++
        .label frame.iterEnd :: ys ++
        [i, .label l, .copy frame.result .nil, .label frame.loopEnd]) :=
  .behind (by simp) rfl

theorem loopLast_condition (hx : Balanced xs) :
    Surrounds r r (.label frame.loopStart :: .label frame.iterStart :: .threadPoll :: xs ++
        [.label frame.iterEnd]) [i, .label l, .copy frame.result .nil, .label frame.loopEnd] ys
      (.label frame.loopStart :: .label frame.iterStart :: .threadPoll :: xs ++
        .label frame.iterEnd :: ys ++
        [i, .label l, .copy frame.result .nil, .label frame.loopEnd]) :=
  .behind (by simp) ((((hx.cons rfl).cons rfl).cons rfl).append rfl)

end Loops

section Ensures

variable {frame : EnsureFrame}

theorem ensure_body :
    Surrounds r frame.dummyRescue [.label frame.regionStart, .regionStart frame.dummyRescue]
      (.regionEnd :: .copy result value :: cs ++ .jump frame.bodyEnd :: .label frame.dummyRescue ::
        .receiveException exception :: .label frame.bodyStart :: frame.instrs ++
        [.raise exception, .label frame.bodyEnd]) xs
      (.label frame.regionStart :: .regionStart frame.dummyRescue :: xs ++
        .regionEnd :: .copy result value :: cs ++ .jump frame.bodyEnd :: .label frame.dummyRescue ::
        .receiveException exception :: .label frame.bodyStart :: frame.instrs ++
        [.raise exception, .label frame.bodyEnd]) :=
  ⟨by simp, _, rfl, rfl⟩

theorem ensure_cleanup (hx : Balanced xs) (hcs : Balanced cs) :
    Surrounds r r (.label frame.regionStart :: .regionStart frame.dummyRescue :: xs ++
        .regionEnd :: .copy result value :: cs ++ [.jump frame.bodyEnd, .label frame.dummyRescue,
          .receiveException exception, .label frame.bodyStart])
      [.raise exception, .label frame.bodyEnd] frame.instrs
      (.label frame.regionStart :: .regionStart frame.dummyRescue :: xs ++
        .regionEnd :: .copy result value :: cs ++ .jump frame.bodyEnd :: .label frame.dummyRescue ::
        .receiveException exception :: .label frame.bodyStart :: frame.instrs ++
        [.raise exception, .label frame.bodyEnd]) :=
  .behind (by simp) (.append (.cons rfl (hx.region (hcs.cons rfl))) rfl)

end Ensures

section Rescues

variable {frame : RescueFrame}

theorem rescue_body :
    Surrounds r rescuer [.getGlobal frame.savedException BuildT.currentException, .label frame.entry,
        .regionStart rescuer]
      (.regionEnd :: .copy result value :: .jump after :: .label rescuer ::
        .receiveException exception :: ys ++ [.copy result handled, .label after]) xs
      (.getGlobal frame.savedException BuildT.currentException :: .label frame.entry ::
        .regionStart rescuer :: xs ++ .regionEnd :: .copy result value :: .jump after ::
        .label rescuer :: .receiveException exception :: ys ++
        [.copy result handled, .label after]) :=
  ⟨by simp, _, rfl, rfl⟩

theorem rescue_handler (hx : Balanced xs) :
    Surrounds r r (.getGlobal frame.savedException BuildT.currentException :: .label frame.entry ::
        .regionStart rescuer :: xs ++ [.regionEnd, .copy result value, .jump after, .label rescuer,
          .receiveException exception]) [.copy result handled, .label after] ys
      (.getGlobal frame.savedException BuildT.currentException :: .label frame.entry ::
        .regionStart rescuer :: xs ++ .regionEnd :: .copy result value :: .jump after ::
        .label rescuer :: .receiveException exception :: ys ++
        [.copy result handled, .label after]) :=
  .behind (by simp) (.cons rfl (.cons rfl (hx.region rfl)))

end Rescues

end Surrounds

end ScopeIR
