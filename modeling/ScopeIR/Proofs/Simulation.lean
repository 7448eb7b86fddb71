import ScopeIR.Proofs.Meaning
import ScopeIR.Proofs.Regions

/-! Lists of structured code do what the code means. Each construct is simulated where its list stands,
under any renaming that a copy of it may have gone through. -/

namespace ScopeIR

/-- The instructions stand in the list from the index on. -/
def StandsAt (prog : List Instr) (p : Nat) (xs : List Instr) : Prop := xs <+: prog.drop p

/-- A list in which jumps and raises find their way. -/
structure Runnable (prog : List Instr) : Prop where
  balanced : Balanced prog
  unique (l : Label) : prog.count (.label l) ≤ 1
  unrescued : .label .unrescued ∉ prog

section Standing

variable {prog xs ys : List Instr} {p : Nat} {i : Instr} {l : Label} {past : Deeds}

theorem standsAt_nil : StandsAt prog p [] := List.nil_prefix

theorem standsAt_cons_iff :
    StandsAt prog p (i :: xs) ↔ prog[p]? = some i ∧ StandsAt prog (p + 1) xs := by
  unfold StandsAt
  rw [List.cons_prefix_iff, ← List.head?_drop, ← List.tail_drop]
  cases prog.drop p with
  | nil => simp
  | cons j js =>
    constructor
    · rintro ⟨_, h, hxs⟩
      obtain ⟨rfl, rfl⟩ := List.cons.inj h
      exact ⟨rfl, hxs⟩
    · rintro ⟨h, hxs⟩
      obtain rfl := Option.some.inj h
      exact ⟨js, rfl, hxs⟩

theorem standsAt_append_iff :
    StandsAt prog p (xs ++ ys) ↔ StandsAt prog p xs ∧ StandsAt prog (p + xs.length) ys := by
  induction xs generalizing p with
  | nil => simp only [List.nil_append, standsAt_nil, true_and, List.length_nil, Nat.add_zero]
  | cons i xs ih =>
    rw [List.cons_append, standsAt_cons_iff, standsAt_cons_iff, ih, and_assoc, List.length_cons,
      Nat.add_assoc, Nat.add_comm 1]

theorem StandsAt.take_add (h : StandsAt prog p xs) :
    prog.take (p + xs.length) = prog.take p ++ xs := by
  rw [List.take_add, ← List.prefix_iff_eq_take.mp h]

namespace Runnable

variable (hp : Runnable prog)

include hp

theorem regions_take (p : Nat) : ∃ opened, regions [] (prog.take p) = some opened := by
  have h := hp.balanced
  rw [Balanced, ← List.take_append_drop p prog, regions_append] at h
  obtain ⟨opened, hopened, -⟩ := Option.bind_eq_some_iff.mp h
  exact ⟨opened, hopened⟩

open Machine

theorem rescuerAt_balanced (h : StandsAt prog p xs) (hxs : Balanced xs) :
    rescuerAt prog (p + xs.length) = rescuerAt prog p := by
  obtain ⟨opened, hopened⟩ := hp.regions_take p
  rw [rescuerAt, rescuerAt, h.take_add, regions_append, hopened, Option.bind_some, hxs.regions_eq]

theorem rescuerAt_start (h : prog[p]? = some (.regionStart l)) : rescuerAt prog (p + 1) = l := by
  obtain ⟨opened, hopened⟩ := hp.regions_take p
  have hstands : StandsAt prog p [.regionStart l] := standsAt_cons_iff.mpr ⟨h, standsAt_nil⟩
  rw [rescuerAt, show p + 1 = p + [Instr.regionStart l].length from rfl, hstands.take_add,
    regions_append, hopened]
  rfl

theorem goTo_label (h : prog[p]? = some (.label l)) : goTo prog l past = .at p past := by
  obtain ⟨hlt, hget⟩ := List.getElem?_eq_some_iff.mp h
  have hsplit : prog = prog.take p ++ .label l :: prog.drop (p + 1) := by
    rw [← hget, ← List.drop_eq_getElem_cons hlt, List.take_append_drop]
  -- the label stands nowhere in front, since it stands here and only once
  have hfirst : .label l ∉ prog.take p := by
    have hcount := hp.unique l
    rw [hsplit, List.count_append, List.count_cons_self] at hcount
    exact List.count_eq_zero.mp (by omega)
  have hidx : prog.idxOf (.label l) = p := by
    rw [hsplit, List.idxOf_append_of_notMem hfirst, List.idxOf_cons_self,
      List.length_take_of_le hlt.le, Nat.add_zero]
  rw [goTo, if_pos (hget ▸ List.getElem_mem hlt), hidx]

theorem raised_label (h : prog[p]? = some (.label l)) : raised prog l past = .at p past := by
  have hne : l ≠ .unrescued := by
    rintro rfl
    exact hp.unrescued (List.mem_of_getElem? h)
  rw [raised, if_neg hne, hp.goTo_label h]

end Runnable

end Standing

/-- Renamed by one copy after the other. -/
def Label.renames (ρs : List Renaming) (l : Label) : Label := ρs.foldl (fun l ρ => ρ.label l) l

def Instr.renames (ρs : List Renaming) (i : Instr) : Instr := ρs.foldl (fun i ρ => i.rename ρ) i

section Renames

variable {ρs : List Renaming} {i : Instr} {xs : List Instr}

theorem Instr.renames_label (l : Label) :
    (Instr.label l).renames ρs = .label (l.renames ρs) := by
  induction ρs generalizing l with
  | nil => rfl
  | cons ρ ρs ih => exact ih (ρ.label l)

theorem Instr.renames_regionStart (l : Label) :
    (Instr.regionStart l).renames ρs = .regionStart (l.renames ρs) := by
  induction ρs generalizing l with
  | nil => rfl
  | cons ρ ρs ih => exact ih (ρ.label l)

theorem Instr.effect_renames (hρs : ∀ ρ ∈ ρs, ρ.KeepsNames) (i : Instr) :
    (i.renames ρs).effect = i.effect.relabel (Label.renames ρs) := by
  induction ρs generalizing i with
  | nil => cases h : i.effect <;> simp only [Instr.renames, List.foldl_nil, h] <;> rfl
  | cons ρ ρs ih =>
    obtain ⟨hρ, hρs⟩ := List.forall_mem_cons.mp hρs
    have heffect := ih hρs (i.rename ρ)
    rw [hρ.effect i] at heffect
    refine heffect.trans ?_
    cases i.effect <;> rfl

theorem Balanced.map_renames (h : Balanced xs) : Balanced (xs.map (·.renames ρs)) := by
  induction ρs generalizing xs with
  | nil =>
    have hid : xs.map (·.renames []) = xs := List.map_id'' (fun _ => rfl) xs
    rwa [hid]
  | cons ρ ρs ih =>
    have hmap := ih (h.map_rename ρ)
    rwa [List.map_map] at hmap

end Renames

/-- The instructions stand there renamed. -/
abbrev Hosts (prog : List Instr) (ρs : List Renaming) (p : Nat) (xs : List Instr) : Prop :=
  StandsAt prog p (xs.map (·.renames ρs))

section Hosting

variable {prog xs ys : List Instr} {ρs : List Renaming} {p : Nat} {i : Instr} {l : Label}

theorem hosts_cons_iff :
    Hosts prog ρs p (i :: xs) ↔ prog[p]? = some (i.renames ρs) ∧ Hosts prog ρs (p + 1) xs :=
  standsAt_cons_iff

theorem hosts_append_iff :
    Hosts prog ρs p (xs ++ ys) ↔ Hosts prog ρs p xs ∧ Hosts prog ρs (p + xs.length) ys := by
  rw [Hosts, List.map_append, standsAt_append_iff, List.length_map]

namespace Runnable

open Machine

variable (hp : Runnable prog)

include hp

theorem rescuerAt_hosts (h : Hosts prog ρs p xs) (hxs : Balanced xs) :
    rescuerAt prog (p + xs.length) = rescuerAt prog p := by
  have hlength := hp.rescuerAt_balanced h hxs.map_renames
  rwa [List.length_map] at hlength

theorem rescuerAt_inside (h : prog[p]? = some (i.renames ρs)) (hi : i.isInside) :
    rescuerAt prog (p + 1) = rescuerAt prog p := by
  have hhosts : Hosts prog ρs p [i] := hosts_cons_iff.mpr ⟨h, standsAt_nil⟩
  exact hp.rescuerAt_hosts hhosts (.cons hi .nil)

theorem goTo_renames {past : Deeds} (h : prog[p]? = some ((Instr.label l).renames ρs)) :
    goTo prog (l.renames ρs) past = .at p past :=
  hp.goTo_label (by rw [h, Instr.renames_label])

theorem raised_renames {past : Deeds} (h : prog[p]? = some ((Instr.label l).renames ρs)) :
    raised prog (l.renames ρs) past = .at p past :=
  hp.raised_label (by rw [h, Instr.renames_label])

theorem rescuerAt_regionStart (h : prog[p]? = some ((Instr.regionStart l).renames ρs)) :
    rescuerAt prog (p + 1) = l.renames ρs :=
  hp.rescuerAt_start (by rw [h, Instr.renames_regionStart])

end Runnable

end Hosting

open Machine in
/-- From `m` the machine comes to where the result says: to an end as `Q` says, or else it goes on for
at least `n` steps, and then the same was done. -/
def Follows (O : Oracle) (prog : List Instr) (n : Nat) (m : Machine) (r : Result)
    (Q : Completion → Deeds → Machine → Prop) : Prop :=
  match r with
  | (none, past) => ∃ k p, n ≤ k ∧ exec O prog k m = .at p past
  | (some o, past) => ∃ k, Q o past (exec O prog k m)

namespace Follows

open Machine

variable {O : Oracle} {prog : List Instr} {n k : Nat} {m m' : Machine} {r : Result}
  {Q Q' : Completion → Deeds → Machine → Prop} {o : Completion} {past : Deeds}

theorem here (h : Q o past m) : Follows O prog n m (some o, past) Q := ⟨0, h⟩

theorem mono (h : Follows O prog n m r Q) (hk : k ≤ n) (hQ : ∀ {o past m}, Q o past m → Q' o past m) :
    Follows O prog k m r Q' := by
  obtain ⟨_ | o, past⟩ := r
  · obtain ⟨j, p, hj, h⟩ := h
    exact ⟨j, p, hk.trans hj, h⟩
  · obtain ⟨j, h⟩ := h
    exact ⟨j, hQ h⟩

/-- Steps that come before count. -/
theorem after_ticks (hm : exec O prog k m = m') (h : Follows O prog n m' r Q) :
    Follows O prog (k + n) m r Q := by
  subst hm
  obtain ⟨_ | o, past⟩ := r
  · obtain ⟨j, p, hj, h⟩ := h
    exact ⟨k + j, p, Nat.add_le_add_left hj k, by rw [exec_add, h]⟩
  · obtain ⟨j, h⟩ := h
    exact ⟨k + j, by rw [exec_add]; exact h⟩

theorem after (hm : exec O prog k m = m') (h : Follows O prog n m' r Q) : Follows O prog n m r Q :=
  (h.after_ticks hm).mono (Nat.le_add_left n k) id

theorem after_step (hm : step O prog m = m') (h : Follows O prog n m' r Q) :
    Follows O prog n m r Q := h.after (k := 1) hm

theorem bind {f : Completion → Deeds → Result} (h : Follows O prog n m r Q)
    (hf : ∀ {o past m}, Q o past m → Follows O prog n m (f o past) Q') :
    Follows O prog n m (r.bind f) Q' := by
  obtain ⟨_ | o, past⟩ := r
  · exact h
  · obtain ⟨k, h⟩ := h
    exact (hf h).after rfl

end Follows

/-- The frames whose bodies an exit runs, and what it does then. -/
inductive Site.Exits (σ : Site) : Completion → List EnsureFrame → List Instr → Prop
  | breaks {frame : LoopFrame} {value : Operand} : σ.loops.head? = some frame →
    σ.Exits .breaks (Session.passedEnsures (some frame.id) σ.ensures)
      [.copy frame.result value, .jump frame.loopEnd]
  | nexts {frame : LoopFrame} : σ.loops.head? = some frame →
    σ.Exits .nexts (Session.passedEnsures (some frame.id) σ.ensures) [.jump frame.iterEnd]
  | returns {value : Operand} : σ.Exits .returns σ.ensures [.ret value]

/-- Where the machine is when code of the site has ended: at `q` if it fell through, where its rescuer
is placed if it raised, and in front of copies of all bodies that are left to run if it exits. -/
inductive Ends (prog : List Instr) (σ : Site) (ρs : List Renaming) (q : Nat) :
    Completion → Deeds → Machine → Prop
  | falls {past : Deeds} : Ends prog σ ρs q .falls past (.at q past)
  | raises {past : Deeds} :
    Ends prog σ ρs q .raises past (Machine.raised prog (σ.rescuer.renames ρs) past)
  | exits {o : Completion} {frames : List EnsureFrame} {cs last : List Instr} {p : Nat}
    {past : Deeds} : σ.Exits o frames last → AreCopies frames cs →
    Hosts prog ρs p (cs ++ last) → Ends prog σ ρs q o past (.at p past)

/-- Wherever the list stands, it does what the code means. -/
def Simulates (O : Oracle) (prog : List Instr) (fuel : Nat) (σ : Site) (c : Code) (xs : List Instr) :
    Prop :=
  ∀ ρs p q past, (∀ ρ ∈ ρs, ρ.KeepsNames) → Hosts prog ρs p xs → q = p + xs.length →
    Machine.rescuerAt prog p = σ.rescuer.renames ρs →
    Follows O prog fuel (.at p past) (c.run O fuel past) (Ends prog σ ρs q)

theorem Operand.isTruthy_erased (o : Operand) : o.erased.isTruthy = o.isTruthy := by
  cases o with
  | atom a => cases a <;> rfl
  | _ => rfl

theorem Operand.isFalsey_erased (o : Operand) : o.erased.isFalsey = o.isFalsey := by
  cases o with
  | atom a => cases a <;> rfl
  | _ => rfl

theorem Oracle.truth_of_isTruthy {O : Oracle} {past : Deeds} {o : Operand} (h : o.isTruthy) :
    O.truth past o.erased = (true, past) := by
  rw [truth, Operand.isTruthy_erased, if_pos h]

theorem Oracle.truth_of_isFalsey {O : Oracle} {past : Deeds} {o : Operand} (h : ¬ o.isTruthy)
    (h' : o.isFalsey) : O.truth past o.erased = (false, past) := by
  rw [truth, Operand.isTruthy_erased, if_neg h, Operand.isFalsey_erased, if_pos h']

section Stepping

open Machine

variable {O : Oracle} {prog : List Instr} {ρs : List Renaming} {p : Nat} {i : Instr} {past : Deeds}

theorem step_at (hρs : ∀ ρ ∈ ρs, ρ.KeepsNames) (hi : prog[p]? = some (i.renames ρs)) :
    prog[p]?.map Instr.effect = some (i.effect.relabel (Label.renames ρs)) := by
  rw [hi, Option.map_some, Instr.effect_renames hρs]

variable (hρs : ∀ ρ ∈ ρs, ρ.KeepsNames) (hi : prog[p]? = some (i.renames ρs))

include hρs hi

theorem step_passes (heffect : i.effect = .passes) :
    step O prog (.at p past) = .at (p + 1) past := by
  rw [step, step_at hρs hi, heffect]
  rfl

theorem step_goes {l : Label} (heffect : i.effect = .goes l) :
    step O prog (.at p past) = goTo prog (l.renames ρs) past := by
  rw [step, step_at hρs hi, heffect]
  rfl

theorem step_raises (heffect : i.effect = .raises) :
    step O prog (.at p past) = raised prog (rescuerAt prog p) past := by
  rw [step, step_at hρs hi, heffect]
  rfl

theorem step_leaves (heffect : i.effect = .leaves) :
    step O prog (.at p past) = .ended .returned past := by
  rw [step, step_at hρs hi, heffect]
  rfl

theorem step_calls {c : Call} (heffect : i.effect = .calls c) : step O prog (.at p past) =
    if O.raises past c then raised prog (rescuerAt prog p) (.called c true :: past)
    else .at (p + 1) (.called c false :: past) := by
  rw [step, step_at hρs hi, heffect]
  dsimp only [Effect.relabel]
  split
  · next h => rw [h]
  · next h => rw [Bool.eq_false_iff.mpr h]

theorem step_branches {op : BranchOp} {target : Label} {value : Operand} {test : Option Operand}
    (hbranch : i = .branch op target value test) : step O prog (.at p past) =
    if (O.takes past op value.erased (test.map Operand.erased)).1
    then goTo prog (target.renames ρs) (O.takes past op value.erased (test.map Operand.erased)).2
    else .at (p + 1) (O.takes past op value.erased (test.map Operand.erased)).2 := by
  rw [step, step_at hρs hi, hbranch]
  rfl

/-- A branch that is folded goes where the test would go, and asks for nothing. -/
theorem step_branchIf {value : Operand} {b : Bool} {target : Label}
    (hbranch : Instr.branchIf? value (.boolean b) target = some i) : step O prog (.at p past) =
    if (O.agrees past value.erased (.boolean b)).1
    then goTo prog (target.renames ρs) (O.agrees past value.erased (.boolean b)).2
    else .at (p + 1) (O.agrees past value.erased (.boolean b)).2 := by
  -- a constant decides the branch while it is built, and then the oracle is not asked
  have hagrees : O.agrees past value.erased (.boolean b) =
      ((O.truth past value.erased).1 == b, (O.truth past value.erased).2) := rfl
  by_cases htruthy : value.isTruthy
  · rw [hagrees, Oracle.truth_of_isTruthy htruthy]
    cases b with
    | true => exact step_goes hρs hi (by rw [← Option.some.inj hbranch, if_pos htruthy]; rfl)
    | false => exact step_passes hρs hi (by rw [← Option.some.inj hbranch, if_pos htruthy]; rfl)
  by_cases hfalsey : value.isFalsey
  · rw [hagrees, Oracle.truth_of_isFalsey htruthy hfalsey]
    cases b with
    | true =>
      refine step_passes hρs hi ?_
      rw [← Option.some.inj hbranch, if_neg htruthy, if_pos hfalsey]
      rfl
    | false =>
      refine step_goes hρs hi ?_
      rw [← Option.some.inj hbranch, if_neg htruthy, if_pos hfalsey]
      rfl
  cases b with
  | true =>
    have hi' : i = .branch .isTrue target value none := by
      rw [← Option.some.inj hbranch, if_neg htruthy, if_neg hfalsey]
    exact step_branches hρs hi hi'
  | false =>
    have hi' : i = .branch .isFalse target value none := by
      rw [← Option.some.inj hbranch, if_neg htruthy, if_neg hfalsey]
    exact step_branches hρs hi hi'

theorem step_branchUnlessEqual {value test : Operand} {target : Label}
    (hbranch : i = .branchUnlessEqual target value test) : step O prog (.at p past) =
    if (O.agrees past value.erased test.erased).1
    then .at (p + 1) (O.agrees past value.erased test.erased).2
    else goTo prog (target.renames ρs) (O.agrees past value.erased test.erased).2 := by
  unfold Instr.branchUnlessEqual at hbranch
  split at hbranch
  · rw [step_branches hρs hi hbranch]
    change (if (O.truth past value.erased).1 == true then _ else _) =
      if (O.truth past value.erased).1 == false then _ else _
    cases (O.truth past value.erased).1 <;> rfl
  · rw [step_branches hρs hi hbranch]
    change (if (O.truth past value.erased).1 == false then _ else _) =
      if (O.truth past value.erased).1 == true then _ else _
    cases (O.truth past value.erased).1 <;> rfl
  · rw [step_branches hρs hi hbranch]
    change (if !(O.agrees past value.erased test.erased).1 then _ else _) = _
    cases (O.agrees past value.erased test.erased).1 <;> rfl

end Stepping

/-- The machine comes from the one to the other. -/
def Machine.Leads (O : Oracle) (prog : List Instr) (m m' : Machine) : Prop :=
  ∃ k, Machine.exec O prog k m = m'

section Constructs

open Machine

variable {O : Oracle} {prog : List Instr} {fuel n p q q' : Nat} {σ : Site} {ρs : List Renaming}
  {m m' m'' : Machine} {r : Result} {o : Completion} {past : Deeds} {xs ys cs : List Instr}

theorem Machine.Leads.refl (m : Machine) : m.Leads O prog m := ⟨0, rfl⟩

theorem Machine.Leads.step (hm : step O prog m = m') (h : m'.Leads O prog m'') :
    m.Leads O prog m'' := by
  obtain ⟨k, h⟩ := h
  exact ⟨k + 1, by rw [exec, hm, h]⟩

theorem Follows.leads {Q : Completion → Deeds → Machine → Prop} (hm : m.Leads O prog m')
    (h : Follows O prog n m' r Q) : Follows O prog n m r Q := by
  obtain ⟨k, hm⟩ := hm
  exact h.after hm

/-- Only code that falls through cares where its list ends. -/
theorem Ends.elsewhere (h : Ends prog σ ρs q o past m) (ho : o ≠ .falls) :
    Ends prog σ ρs q' o past m := by
  cases h with
  | falls => exact absurd rfl ho
  | raises => exact .raises
  | exits hexit hcopies hhosts => exact .exits hexit hcopies hhosts

theorem Follows.andThen {f : Deeds → Result} (h : Follows O prog n m r (Ends prog σ ρs q))
    (hf : ∀ past, Follows O prog n (.at q past) (f past) (Ends prog σ ρs q')) :
    Follows O prog n m (r.andThen f) (Ends prog σ ρs q') := by
  refine h.bind fun {o past m} hm => ?_
  cases o with
  | falls =>
    cases hm with
    | falls => exact hf past
    | exits hexit => cases hexit
  | _ => exact .here (hm.elsewhere fun h => nomatch h)

/-- Where code falls through, the machine may go on a little. -/
theorem Follows.goOn (h : Follows O prog n m r (Ends prog σ ρs q))
    (hgo : ∀ past, (Machine.at q past).Leads O prog (.at q' past)) :
    Follows O prog n m r (Ends prog σ ρs q') := by
  obtain ⟨_ | o, past⟩ := r
  · exact h
  obtain ⟨k, h⟩ := h
  cases o with
  | falls =>
    generalize hm : exec O prog k m = m' at h
    cases h with
    | falls =>
      obtain ⟨j, hj⟩ := hgo past
      exact ⟨k + j, by rw [exec_add, hm, hj]; exact .falls⟩
    | exits hexit => cases hexit
  | _ => exact ⟨k, h.elsewhere fun h => nomatch h⟩

theorem simulates_call {result : Variable} {type : CallType} {receiver : Operand} {name : Symbol}
    {args : List Operand} {block : Operand} {flags : CallFlags} {refined : Bool} :
    Simulates O prog fuel σ (.call result type receiver name args block flags)
      [.call ⟨type, some result, name, receiver, args, block, flags, refined⟩] := by
  rintro ρs p _ past hρs hhosts rfl hrescuer
  let c : Call := .seen ⟨type, none, name, receiver, args, block, flags, false⟩
  have hstep : step O prog (.at p past) = if O.raises past c
      then raised prog (rescuerAt prog p) (.called c true :: past)
      else .at (p + 1) (.called c false :: past) := step_calls hρs (hosts_cons_iff.mp hhosts).1 rfl
  have hrun : (Code.call result type receiver name args block flags).run O fuel past =
      (some (if O.raises past c then .raises else .falls), .called c (O.raises past c) :: past) := rfl
  rw [hrescuer] at hstep
  rw [hrun]
  refine Follows.after_step hstep ?_
  cases O.raises past c with
  | true => exact .here .raises
  | false => exact .here .falls

variable (hp : Runnable prog)

include hp

theorem simulates_seq {first rest : Code} (hx : Simulates O prog fuel σ first xs)
    (hxs : Balanced xs) (hy : Simulates O prog fuel σ rest ys) :
    Simulates O prog fuel σ (.seq first rest) (xs ++ ys) := by
  intro ρs p q past hρs hhosts hq hrescuer
  obtain ⟨hhosts, hhosts'⟩ := hosts_append_iff.mp hhosts
  have hrescuer' := (hp.rescuerAt_hosts hhosts hxs).trans hrescuer
  rw [List.length_append, ← Nat.add_assoc] at hq
  exact (hx ρs p _ past hρs hhosts rfl hrescuer).andThen fun past =>
    hy ρs _ q past hρs hhosts' hq hrescuer'

theorem simulates_ifElse {value test : Operand} {yes no : Code} {elseLabel endLabel : Label}
    (hx : Simulates O prog fuel σ yes xs) (hxs : Balanced xs)
    (hy : Simulates O prog fuel σ no ys) :
    Simulates O prog fuel σ (.ifElse value test yes no)
      (.branchUnlessEqual elseLabel value test :: xs ++ .jump endLabel :: .label elseLabel :: ys ++
        [.label endLabel]) := by
  intro ρs p q past hρs hhosts hq hrescuer
  simp only [List.cons_append, List.append_assoc, hosts_cons_iff, hosts_append_iff] at hhosts
  obtain ⟨hbranch, hyes, hjump, helse, hno, hend, -⟩ := hhosts
  obtain rfl : q = p + 1 + xs.length + 1 + 1 + ys.length + 1 := by
    simp only [hq, List.cons_append, List.length_cons, List.length_append, List.length_nil]
    omega
  -- both branches stand where the same regions are open as in front
  have hrescuerYes := (hp.rescuerAt_inside hbranch
    (Instr.isInside_of_isMove isMove_branchUnlessEqual)).trans hrescuer
  have hrescuerJump := (hp.rescuerAt_hosts hyes hxs).trans hrescuerYes
  have hrescuerNo := (hp.rescuerAt_inside helse rfl).trans
    ((hp.rescuerAt_inside hjump rfl).trans hrescuerJump)
  have hleave : ∀ past, (Machine.at _ past).Leads O prog (.at _ past) := fun past =>
    .step (step_passes hρs hend rfl) (.refl _)
  refine Follows.after_step (step_branchUnlessEqual hρs hbranch rfl) ?_
  rw [Code.run]
  dsimp only
  split
  · exact (hx ρs _ _ _ hρs hyes rfl hrescuerYes).goOn fun past =>
      .step ((step_goes hρs hjump rfl).trans (hp.goTo_renames hend)) (hleave past)
  · rw [hp.goTo_renames helse]
    refine Follows.after_step (step_passes hρs helse rfl) ?_
    exact (hy ρs _ _ _ hρs hno rfl hrescuerNo).goOn hleave

end Constructs

end ScopeIR
