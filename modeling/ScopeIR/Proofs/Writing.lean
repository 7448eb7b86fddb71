import ScopeIR.Proofs.Constructs
import ScopeIR.Proofs.Layout

/-! What each kind of code writes, exits aside, and which labels it hands out: the lists of all code,
with the constructs that take labels among them. -/

namespace ScopeIR

namespace Code

/-- Writes nothing to the list of its scope. -/
def isSilent : Code → Bool
  | done | mark | temp | note _ | block .. | nested .. => true
  | _ => false

def isExit : Code → Bool
  | .break _ | next _ | redo | retry | .return _ => true
  | _ => false

/-- The label that it goes to, among those handed out. -/
def target? : Code → Option Nat
  | jump target | branch _ target .. | cond target .. | condNe target .. => some target
  | _ => none

end Code

theorem Instr.target?_of_isPlain {i : Instr} (h : i.isPlain) : i.target? = none := by
  cases i <;> first | rfl | cases h

/-- Building it somewhere adds the list. These labels were handed out before, and those when it is
built. -/
def Code.IsBuilt (c : Code) (h : List Label) (xs : List Instr) (h' : List Label) : Prop :=
  ∃ place s t points points',
    TrailM.Runs (c.build place) s ⟨h, points⟩ () t ⟨h', points'⟩ ∧ s.Emits t xs

open Session in
/-- The list of the code where the label covers it and these labels were handed out, and the labels that
are handed out behind it. -/
inductive Writes : Label → List Label → Code → List Instr → List Label → Prop
  | silent {r : Label} {h : List Label} {c : Code} : c.isSilent → Writes r h c [] h
  | seq {r : Label} {h h₁ h₂ : List Label} {first rest : Code} {xs ys : List Instr} :
    first.IsBuilt h xs h₁ → rest.IsBuilt h₁ ys h₂ → Writes r h first xs h₁ → Writes r h₁ rest ys h₂ →
    Writes r h (.seq first rest) (xs ++ ys) h₂
  | emit {r : Label} {h : List Label} {i : { i : Instr // i.isPlain }} : Writes r h (.emit i) [i.1] h
  | call {r : Label} {h : List Label} {result : Variable} {type : CallType} {receiver : Operand}
      {name : Symbol} {args : List Operand} {block : Operand} {flags : CallFlags} {refined : Bool} :
    Writes r h (.call result type receiver name args block flags)
      [.call ⟨type, some result, name, receiver, args, block, flags, refined⟩] h
  | zsuper {r : Label} {h : List Label} {block : Operand} {xs : List Instr} :
    (∀ i ∈ xs, i.isInside) → (∀ i ∈ xs, ∀ l, i.target? = some l → l ∈ placed xs) →
    Writes r h (.zsuper block) xs h
  | exit {r : Label} {h : List Label} {c : Code} {xs : List Instr} : c.isExit → Balanced xs →
    Writes r h c xs h
  /-- Without a label at hand nothing is written. -/
  | stray {r : Label} {h : List Label} {c : Code} {target : Nat} : c.target? = some target →
    h[target]? = none → Writes r h c [] h
  | jump {r : Label} {h : List Label} {target : Nat} {l : Label} : h[target]? = some l →
    Writes r h (.jump target) [.jump l] h
  | branch {r : Label} {h : List Label} {op : BranchOp} {target : Nat} {value : Operand}
      {test : Option Operand} {l : Label} : h[target]? = some l →
    Writes r h (.branch op target value test) [.branch op l value test] h
  | cond {r : Label} {h : List Label} {target : Nat} {value test : Operand} {l : Label} {i : Instr} :
    h[target]? = some l → Instr.branchIf? value test l = some i →
    Writes r h (.cond target value test) [i] h
  | condNe {r : Label} {h : List Label} {target : Nat} {value test : Operand} {l : Label} :
    h[target]? = some l → Writes r h (.condNe target value test) [.branchUnlessEqual l value test] h
  | ifElse {r : Label} {h h₁ h₂ : List Label} {value test : Operand} {yes no : Code}
      {xs ys : List Instr} {elseLabel endLabel : Label} : yes.IsBuilt h xs h₁ → no.IsBuilt h₁ ys h₂ →
    Writes r h yes xs h₁ → Writes r h₁ no ys h₂ →
    Writes r h (.ifElse value test yes no) (.branchUnlessEqual elseLabel value test :: xs ++
      .jump endLabel :: .label elseLabel :: ys ++ [.label endLabel]) h₂
  | ifNot {r : Label} {h h₁ : List Label} {value test : Operand} {body : Code} {xs : List Instr}
      {after : Label} {i : Instr} : Instr.branchIf? value test after = some i →
    body.IsBuilt h xs h₁ → Writes r h body xs h₁ →
    Writes r h (.ifNot value test body) (i :: xs ++ [.label after]) h₁
  | forLoop {r : Label} {h h₁ h₂ h₃ : List Label} {test increment body : Code}
      {xs ys zs : List Instr} {top bottom after : Label} : test.IsBuilt (h ++ [after]) xs h₁ →
    body.IsBuilt (h₁ ++ [bottom]) ys h₂ → increment.IsBuilt h₂ zs h₃ →
    Writes r (h ++ [after]) test xs h₁ → Writes r (h₁ ++ [bottom]) body ys h₂ →
    Writes r h₂ increment zs h₃ →
    Writes r h (.forLoop test increment body) (.label top :: xs ++ ys ++ .label bottom :: zs ++
      [.jump top, .label after]) h₃
  | times {r : Label} {h : List Label} {count : Nat} {body : Nat → Code} {xs : Nat → List Instr}
      {hs : Nat → List Label} {after : Label} : hs 0 = h →
    (∀ i < count, (body i).IsBuilt (hs i ++ [after]) (xs i) (hs (i + 1))) →
    (∀ i < count, Writes r (hs i ++ [after]) (body i) (xs i) (hs (i + 1))) →
    Writes r h (.times count body) ((List.range count).flatMap xs ++ [.label after]) (hs count)
  | labelled {r : Label} {h h₁ : List Label} {stem : Stem} {body : Code} {xs : List Instr}
      {after : Label} : body.IsBuilt (h ++ [after]) xs h₁ → Writes r (h ++ [after]) body xs h₁ →
    Writes r h (.labelled stem body) (xs ++ [.label after]) h₁
  | loopFirst {r : Label} {h h₁ h₂ : List Label} {condition body : Code} {value : Operand}
      {goOn : Bool} {frame : LoopFrame} {setResult : Label} {i : Instr} {xs ys : List Instr} :
    Instr.branchIf? value (.boolean !goOn) setResult = some i → condition.IsBuilt h xs h₁ →
    body.IsBuilt h₁ ys h₂ → Writes r h condition xs h₁ → Writes r h₁ body ys h₂ →
    Writes r h (.loop condition value body goOn true) (.label frame.loopStart :: xs ++
      i :: .label frame.iterStart :: .threadPoll :: ys ++
      [.label frame.iterEnd, .jump frame.loopStart, .label setResult, .copy frame.result .nil,
        .label frame.loopEnd]) h₂
  | loopLast {r : Label} {h h₁ h₂ : List Label} {condition body : Code} {value : Operand}
      {goOn : Bool} {frame : LoopFrame} {setResult : Label} {i : Instr} {xs ys : List Instr} :
    Instr.branchIf? value (.boolean goOn) frame.iterStart = some i → body.IsBuilt h xs h₁ →
    condition.IsBuilt h₁ ys h₂ → Writes r h body xs h₁ → Writes r h₁ condition ys h₂ →
    Writes r h (.loop condition value body goOn false) (.label frame.loopStart ::
      .label frame.iterStart :: .threadPoll :: xs ++ .label frame.iterEnd :: ys ++
      [i, .label setResult, .copy frame.result .nil, .label frame.loopEnd]) h₂
  /-- The cleanup is built before the body. -/
  | ensure {r : Label} {h h₁ h₂ : List Label} {body cleanup : Code} {value unused : Operand}
      {frame : EnsureFrame} {result exception : Variable} {s t : Session} {xs cs : List Instr} :
    frame.rescuer = r → cleanup.IsBuilt h frame.instrs h₁ → body.IsBuilt h₁ xs h₂ →
    Writes r h cleanup frame.instrs h₁ →
    Writes frame.dummyRescue h₁ body xs h₂ → Copies frame s t cs →
    Writes r h (.ensure body value cleanup unused) (.label frame.regionStart ::
      .regionStart frame.dummyRescue :: xs ++ .regionEnd :: .copy result value :: cs ++
      .jump frame.bodyEnd :: .label frame.dummyRescue :: .receiveException exception ::
      .label frame.bodyStart :: frame.instrs ++ [.raise exception, .label frame.bodyEnd]) h₂
  | rescue {r : Label} {h h₁ h₂ : List Label} {body handler : Code} {value handled : Operand}
      {frame : RescueFrame} {rescuer after : Label} {result exception : Variable}
      {xs ys : List Instr} : body.IsBuilt h xs h₁ → handler.IsBuilt h₁ ys h₂ →
    Writes rescuer h body xs h₁ → Writes r h₁ handler ys h₂ →
    Writes r h (.rescue body value handler handled)
      (.getGlobal frame.savedException BuildT.currentException :: .label frame.entry ::
        .regionStart rescuer :: xs ++ .regionEnd :: .copy result value :: .jump after ::
        .label rescuer :: .receiveException exception :: ys ++
        [.copy result handled, .label after]) h₂

section Balance

open Session

variable {s t : Session} {frame : EnsureFrame} {frames : List EnsureFrame} {cs : List Instr}

theorem Session.Copies.balanced (h : Copies frame s t cs) (hframe : Balanced frame.instrs) :
    Balanced cs := by
  cases h with
  | empty _ _ => exact .nil
  | full _ _ => exact frame.balanced_copy hframe _

theorem Session.CopiesAll.balanced (h : CopiesAll frames s t cs)
    (hframes : ∀ f ∈ frames, Balanced f.instrs) : Balanced cs := by
  induction h with
  | nil _ => exact .nil
  | cons h _ ih =>
    exact (h.balanced (hframes _ List.mem_cons_self)).append
      (ih fun f hf => hframes f (List.mem_cons_of_mem _ hf))

theorem Balanced.flatMap {ns : List Nat} {f : Nat → List Instr} (h : ∀ n ∈ ns, Balanced (f n)) :
    Balanced (ns.flatMap f) := by
  induction ns with
  | nil => exact .nil
  | cons n ns ih =>
    exact (h n List.mem_cons_self).append (ih fun m hm => h m (List.mem_cons_of_mem _ hm))

variable {r : Label} {h h' : List Label} {c : Code} {xs : List Instr}

/-- Regions are ended in the construct that starts them. -/
theorem Writes.balanced (hw : Writes r h c xs h') : Balanced xs := by
  have hmove : ∀ {value test l i}, Instr.branchIf? value test l = some i → i.isInside :=
    fun hi => Instr.isInside_of_isMove (isMove_of_branchIf hi)
  induction hw with
  | silent _ | stray _ _ => exact .nil
  | seq _ _ _ _ ihFirst ihRest => exact ihFirst.append ihRest
  | @emit _ _ i => exact .cons (Instr.isInside_of_isPlain i.2) .nil
  | call | jump _ | branch _ => exact rfl
  | zsuper hinside _ => exact .of_inside hinside
  | exit _ hxs => exact hxs
  | cond _ hi => exact .cons (hmove hi) .nil
  | condNe _ => exact .cons (Instr.isInside_of_isMove isMove_branchUnlessEqual) .nil
  | ifElse _ _ _ _ ihYes ihNo =>
    refine .append (.append (ihYes.cons (Instr.isInside_of_isMove isMove_branchUnlessEqual)) ?_) rfl
    exact (ihNo.cons rfl).cons rfl
  | ifNot hi _ _ ih => exact (ih.cons (hmove hi)).append rfl
  | forLoop _ _ _ _ _ _ ihTest ihBody ihIncrement =>
    exact .append (.append ((ihTest.cons rfl).append ihBody) (ihIncrement.cons rfl)) rfl
  | times _ _ _ ih => exact .append (.flatMap fun i hi => ih i (List.mem_range.mp hi)) rfl
  | labelled _ _ ih => exact ih.append rfl
  | loopFirst hi _ _ _ _ ihCondition ihBody =>
    refine .append (.append (ihCondition.cons rfl) ?_) rfl
    exact ((ihBody.cons rfl).cons rfl).cons (hmove hi)
  | loopLast hi _ _ _ _ ihBody ihCondition =>
    refine .append (.append (((ihBody.cons rfl).cons rfl).cons rfl) (ihCondition.cons rfl)) ?_
    exact .cons (hmove hi) rfl
  | ensure _ _ _ _ _ hcopy ihCleanup ihBody =>
    refine .append (.append (.cons rfl (ihBody.region ((hcopy.balanced ihCleanup).cons rfl))) ?_) rfl
    exact (((ihCleanup.cons rfl).cons rfl).cons rfl).cons rfl
  | rescue _ _ _ _ ihBody ihHandler =>
    refine .append (.cons rfl (.cons rfl (ihBody.region ?_))) rfl
    exact (((ihHandler.cons rfl).cons rfl).cons rfl).cons rfl

end Balance

namespace TrailM

open Session

variable {α : Type} {s t : Session} {h : Trail} {c : Code} {xs : List Instr}
  {I : Nesting × Session → Prop}

/-- Regions are ended in the bodies of the ensures around. -/
def Framed (s : Session) : Prop := ∀ f ∈ s.builder.ensures, Balanced f.instrs

/-- The list that the action adds is what the code writes. -/
abbrev WritesOut (c : Code) (x : TrailM Unit) : Prop := ∀ {s : Session} {h : Trail}, Framed s →
  x.Builds s h (fun _ => True) fun _ _ k xs => Writes s.builder.rescuer h.handed c xs k.handed

/-- And building the code adds it. -/
abbrev BuildsOut (c : Code) (x : TrailM Unit) : Prop := ∀ {s : Session} {h : Trail}, Framed s →
  x.Builds s h (fun _ => True) fun _ _ k xs =>
    c.IsBuilt h.handed xs k.handed ∧ Writes s.builder.rescuer h.handed c xs k.handed

theorem built {place : Nesting} (hx : WritesOut c (c.build place)) :
    BuildsOut c (c.build place) := by
  intro s h hs
  refine ⟨fun {a t k} hr => ?_, (hx hs).points⟩
  obtain ⟨xs, hxs, hwrites⟩ := (hx hs).result hr
  exact ⟨xs, hxs, ⟨place, s, t, h.points, k.points, hr, hxs⟩, hwrites⟩

theorem rescuer_of_emits (ht : s.Emits t xs) : t.builder.rescuer = s.builder.rescuer := by
  rw [Builder.rescuer, ht.sameStacks.rescuers, Builder.rescuer]

theorem Framed.of_eq (hs : Framed s) (h : t.builder.ensures = s.builder.ensures) : Framed t := by
  rw [Framed, h]
  exact hs

theorem Framed.emits (hs : Framed s) (ht : s.Emits t xs) : Framed t := hs.of_eq ht.sameStacks.ensures

theorem framed_of_fresh (hs : s.builder.Fresh) : Framed s := by
  rw [Framed, hs.ensures]
  exact fun _ hf => absurd hf List.not_mem_nil

theorem builds_then_done {x : TrailM α} {Q : Session → Trail → List Instr → Prop}
    (hx : x.Builds s h I fun _ t k xs => Q t k xs) :
    Builds (do let _ ← x) s h I fun _ t k xs => Q t k xs := by
  refine Builds.bind (Builds.mono hx fun _ hq => Builds.pure ?_)
  rw [List.append_nil]
  exact hq

theorem writes_withHanded {r : Label} {target : Nat} {act : Label → SessionM Unit}
    (hc : c.target? = some target) (hact : ∀ {l t}, h.handed[target]? = some l → s.Runs (act l) () t →
      ∃ xs, s.Emits t xs ∧ Writes r h.handed c xs h.handed) :
    Builds (withHanded target act) s h I fun _ _ k xs => Writes r h.handed c xs k.handed :=
  builds_withHanded hact (.stray hc)

theorem writesOut_seq {first rest : Code} {x y : TrailM Unit} (hx : BuildsOut first x)
    (hy : BuildsOut rest y) : WritesOut (.seq first rest) (do x; y) := by
  intro s h hs
  refine Builds.bind (Builds.mono (hx hs) fun hxs ⟨hbuilt, hx⟩ => ?_)
  refine Builds.mono (hy (hs.emits hxs)) fun _ ⟨hbuilt', hy⟩ => ?_
  exact .seq hbuilt hbuilt' hx (rescuer_of_emits hxs ▸ hy)

theorem writesOut_ifElse {value test : Operand} {yes no : Code} {x y : TrailM Unit}
    (hx : BuildsOut yes x) (hy : BuildsOut no y) :
    WritesOut (.ifElse value test yes no) (BuildT.ifElse value test x y) := by
  intro s h hs
  refine builds_ifElse fun {e n s₁ s₂ s₃} he hn hbranch => ?_
  have hs₃ := (he.toEmits.trans hn.toEmits).trans hbranch
  refine Builds.mono (hx (hs.emits hs₃)) fun {_ s₄ k xs} hxs ⟨hbuilt, hx⟩ => fun hmiddle => ?_
  have hs₅ := (hs₃.trans hxs).trans hmiddle
  refine Builds.mono (hy (hs.emits hs₅)) fun _ ⟨hbuilt', hy⟩ => fun _ => ?_
  exact .ifElse hbuilt hbuilt' (rescuer_of_emits hs₃ ▸ hx) (rescuer_of_emits hs₅ ▸ hy)

theorem writesOut_ifNot {value test : Operand} {body : Code} {x : TrailM Unit}
    (hx : BuildsOut body x) : WritesOut (.ifNot value test body) (BuildT.ifNot value test x) := by
  intro s h hs
  refine builds_ifNot fun hlabel hi hbranch => ?_
  have hs₂ := hlabel.toEmits.trans hbranch
  refine Builds.mono (hx (hs.emits hs₂)) fun _ ⟨hbuilt, hx⟩ => fun _ => ?_
  exact .ifNot hi hbuilt (rescuer_of_emits hs₂ ▸ hx)

theorem writesOut_labelled {stem : Stem} {body : Code} {x : TrailM Unit} (hx : BuildsOut body x) :
    WritesOut (.labelled stem body) (BuildT.labelled stem.text fun l => do hand l; x) := by
  intro s h hs
  refine builds_labelled fun hlabel => ?_
  refine Yields.hand_bind (Builds.mono (hx (hs.emits hlabel.toEmits)) fun _ ⟨hbuilt, hx⟩ => ?_)
  exact fun _ => .labelled hbuilt (rescuer_of_emits hlabel.toEmits ▸ hx)

theorem writesOut_forLoop {test increment body : Code} {x y z : TrailM Unit}
    (hx : BuildsOut test x) (hz : BuildsOut increment z) (hy : BuildsOut body y) :
    WritesOut (.forLoop test increment body) (BuildT.forLoop (fun after => do hand after; x)
      (fun _ => z) fun _ bottom => do hand bottom; y) := by
  intro s h hs
  refine builds_forLoop fun htop hbottom hafter hlabel => ?_
  have hs₄ := ((htop.toEmits.trans hbottom.toEmits).trans hafter.toEmits).trans hlabel
  refine Yields.hand_bind (Builds.mono (hx (hs.emits hs₄)) fun hxs ⟨hbuilt, hx⟩ => ?_)
  have hs₅ := hs₄.trans hxs
  refine Yields.hand_bind (Builds.mono (hy (hs.emits hs₅)) fun hys ⟨hbuilt', hy⟩ => fun hmiddle => ?_)
  have hs₇ := (hs₅.trans hys).trans hmiddle
  refine Builds.mono (hz (hs.emits hs₇)) fun _ ⟨hbuilt'', hz⟩ => fun _ => ?_
  exact .forLoop hbuilt hbuilt' hbuilt'' (rescuer_of_emits hs₄ ▸ hx) (rescuer_of_emits hs₅ ▸ hy)
    (rescuer_of_emits hs₇ ▸ hz)

/-- Copies that are handed the same label, numbered from `start`. -/
theorem builds_repeated_writes {l : Label} {body : Nat → Code} {x : Nat → TrailM Unit}
    (hx : ∀ i, BuildsOut (body i) (x i)) (start count : Nat) (hs : Framed s) :
    Builds (BuildT.repeated (fun i => do hand l; x i) start count) s h (fun _ => True)
      fun _ _ k zs => ∃ (xs : Nat → List Instr) (hs : Nat → List Label), hs 0 = h.handed ∧
        hs count = k.handed ∧ zs = (List.range count).flatMap xs ∧ ∀ i < count,
          (body (start + i)).IsBuilt (hs i ++ [l]) (xs i) (hs (i + 1)) ∧
            Writes s.builder.rescuer (hs i ++ [l]) (body (start + i)) (xs i) (hs (i + 1)) := by
  induction count generalizing start s h with
  | zero => exact Builds.pure ⟨fun _ => [], fun _ => h.handed, rfl, rfl, rfl, fun i hi => nomatch hi⟩
  | succ count ih =>
    refine Builds.bind (Yields.hand_bind (Builds.mono (hx start hs) fun {_ t k ys} hys hy => ?_))
    refine Builds.mono (ih (start + 1) (hs.emits hys)) ?_
    rintro _ u l' _ - ⟨xs, hs', hzero, hlast, rfl, hall⟩
    rw [rescuer_of_emits hys] at hall
    refine ⟨fun i => i.casesOn ys xs, fun i => i.casesOn h.handed hs', rfl, hlast, ?_, ?_⟩
    · rw [List.range_succ_eq_map, List.flatMap_cons, List.flatMap_map]
      rfl
    · rintro (_ | i) hi
      · rw [← hzero] at hy
        exact hy
      · have hi := hall i (Nat.lt_of_succ_lt_succ hi)
        rwa [Nat.add_assoc, Nat.add_comm 1] at hi

theorem writesOut_times {count : Nat} {body : Nat → Code} {x : Nat → TrailM Unit}
    (hx : ∀ i, BuildsOut (body i) (x i)) :
    WritesOut (.times count body) (BuildT.times count fun after i => do hand after; x i) := by
  intro s h hs
  refine builds_labelled fun hlabel => ?_
  refine Builds.mono (builds_repeated_writes hx 0 count (hs.emits hlabel.toEmits)) ?_
  rintro _ t k _ - ⟨xs, hs', hzero, hlast, rfl, hall⟩ u -
  rw [rescuer_of_emits hlabel.toEmits] at hall
  rw [← hlast]
  simp only [Nat.zero_add] at hall
  exact .times hzero (fun i hi => (hall i hi).1) fun i hi => (hall i hi).2

theorem writes_loop {condition body : Code} {value : Operand} {goOn testFirst : Bool}
    {x y : TrailM Unit} (hx : BuildsOut condition x) (hy : BuildsOut body y) (hs : Framed s) :
    Builds (BuildT.loop (do x; return value) y goOn testFirst : TrailM Operand) s h (fun _ => True)
      fun _ _ k xs => Writes s.builder.rescuer h.handed (.loop condition value body goOn testFirst) xs
        k.handed := by
  have hsame : ∀ {t frame setResult}, s.OpensLoop t frame setResult →
      t.builder.rescuer = s.builder.rescuer ∧ Framed t := by
    intro t frame setResult hopen
    refine ⟨?_, hs.of_eq hopen.ensures⟩
    rw [Builder.rescuer, hopen.rescuers, Builder.rescuer]
  cases testFirst with
  | true =>
    refine builds_loop_testFirst fun {frame setResult s₁} hopen => ?_
    obtain ⟨hrescuer, hs₁⟩ := hsame hopen
    refine builds_value (Builds.mono (hx hs₁) fun {_ s₂ k xs} hxs hx => ?_)
    obtain ⟨hbuilt, hx⟩ := hx
    intro i s₃ hi hmiddle
    have hs₃ := hxs.trans hmiddle
    refine Builds.mono (hy (hs₁.emits hs₃)) fun _ hy => ?_
    obtain ⟨hbuilt', hy⟩ := hy
    intro t _
    exact .loopFirst hi hbuilt hbuilt' (hrescuer ▸ hx) (hrescuer ▸ rescuer_of_emits hs₃ ▸ hy)
  | false =>
    refine builds_loop_testLast fun {frame setResult s₁ s₂} hopen hbegin => ?_
    obtain ⟨hrescuer, hs₁⟩ := hsame hopen
    refine Builds.mono (hy (hs₁.emits hbegin)) fun {_ s₃ k ys} hys hy => ?_
    obtain ⟨hbuilt, hy⟩ := hy
    intro s₄ hmiddle
    have hs₄ := (hbegin.trans hys).trans hmiddle
    refine builds_value (Builds.mono (hx (hs₁.emits hs₄)) fun {_ s₅ k' xs} hxs hx => ?_)
    obtain ⟨hbuilt', hx⟩ := hx
    intro i t hi _
    rw [rescuer_of_emits hs₄, hrescuer] at hx
    rw [rescuer_of_emits hbegin, hrescuer] at hy
    exact .loopLast hi hbuilt hbuilt' hy hx

theorem writes_ensure {body cleanup : Code} {value unused : Operand} {x y : TrailM Unit}
    (hx : BuildsOut body x) (hy : BuildsOut cleanup y) (hs : Framed s) :
    Builds (BuildT.ensure (do x; return value) (do y; return unused) : TrailM Operand) s h
      (fun _ => True) fun _ _ k xs => Writes s.builder.rescuer h.handed
        (.ensure body value cleanup unused) xs k.handed := by
  refine builds_ensure fun {frame s₁} hframe => ?_
  have hs₁ : Framed (s₁.entering frame) := Framed.emits (t := s₁) hs hframe.toEmits
  refine builds_value (Builds.mono (hy hs₁) fun {_ s₂ k ys} hys hy => ?_)
  obtain ⟨hbuilt, hy⟩ := hy
  intro result s₃ hopen
  have hy : Writes s.builder.rescuer h.handed cleanup ys k.handed := by
    have hsame : s₁.builder.rescuer = s.builder.rescuer := rescuer_of_emits hframe.toEmits
    exact hsame ▸ hy
  have hs₂ : Framed s₂ := hs₁.emits hys
  have hs₃ : Framed s₃ := by
    rw [Framed, hopen.ensures]
    exact List.forall_mem_cons.mpr ⟨hy.balanced, hs₂⟩
  refine builds_value (Builds.mono (hx hs₃) fun {_ s₄ k' xs} hxs hx => ?_)
  obtain ⟨hbuilt', hx⟩ := hx
  intro exception s₅ s₆ t cs _ hcopies _
  have hdummy : s₃.builder.rescuer = frame.dummyRescue := by
    rw [Builder.rescuer, hopen.rescuers]
    rfl
  rw [hdummy] at hx
  have hfilled : (frame.filled ys).rescuer = s.builder.rescuer := hframe.rescuer_eq
  exact .ensure hfilled hbuilt hbuilt' hy hx hcopies

theorem writes_rescue {body handler : Code} {value handled : Operand} {x y : TrailM Unit}
    (hx : BuildsOut body x) (hy : BuildsOut handler y) (hs : Framed s) :
    Builds (BuildT.rescue (do x; return value) fun _ => do y; return handled : TrailM Operand) s h
      (fun _ => True) fun _ _ k xs => Writes s.builder.rescuer h.handed
        (.rescue body value handler handled) xs k.handed := by
  refine builds_rescue fun {frame rescuer after} result {s₁} hopen => ?_
  have hs₁ : Framed s₁ := hs.of_eq hopen.ensures
  refine builds_value (Builds.mono (hx hs₁) fun {_ s₂ k xs} hxs hx => ?_)
  obtain ⟨hbuilt, hx⟩ := hx
  intro exception s₃ henter
  have hs₃ : Framed s₃ := (hs₁.emits hxs).of_eq henter.ensures
  refine builds_value (Builds.mono (hy hs₃) fun {_ s₄ k' ys} hys hy => ?_)
  obtain ⟨hbuilt', hy⟩ := hy
  intro t _
  have hbody : s₁.builder.rescuer = rescuer := by
    rw [Builder.rescuer, hopen.rescuers]
    rfl
  have hhandler : s₃.builder.rescuer = s.builder.rescuer := by
    rw [Builder.rescuer, henter.rescuers, hxs.sameStacks.rescuers, hopen.rescuers, List.tail_cons,
      Builder.rescuer]
  exact .rescue hbuilt hbuilt' (hbody ▸ hx) (hhandler ▸ hy)

section Exits

variable {value : Operand}

theorem passed_balanced {loop : Option LoopId} (hs : Framed s) :
    ∀ f ∈ passedEnsures loop s.builder.ensures, Balanced f.instrs :=
  fun f hf => hs f (mem_of_mem_passedEnsures hf)

theorem balanced_of_breaks (hs : Framed s) (h : s.Breaks value t xs) : Balanced xs := by
  cases h with
  | loop _ hcopies _ => exact (hcopies.balanced (passed_balanced hs)).append rfl
  | block => rfl

theorem balanced_of_nexts (hs : Framed s) (h : s.Nexts value t xs) : Balanced xs := by
  cases h with
  | loop _ hcopies _ => exact (hcopies.balanced (passed_balanced hs)).append rfl
  | block _ hcopies => exact (hcopies.balanced hs).append rfl

theorem balanced_of_redoes (h : s.Redoes t xs) : Balanced xs := by cases h <;> rfl

theorem balanced_of_returns (hs : Framed s) (h : s.Returns value t xs) : Balanced xs := by
  cases h with
  | transfer _ _ hplain => exact .of_inside fun i hi => Instr.isInside_of_isPlain (hplain i hi)
  | plain => rfl
  | copies _ hcopies => exact ((hcopies.balanced hs).cons rfl).append rfl

end Exits

theorem writes_zsuper {block : Operand} : Builds (BuildT.zsuper block : TrailM Variable) s h
    (fun _ => True) fun _ _ k xs => Writes s.builder.rescuer h.handed (.zsuper block) xs k.handed := by
  refine builds_zsuper ?_ ?_ ?_
  · intro result t xs _ hraising _ _
    refine .zsuper (fun i hi => Instr.isInside_of_isPlain (hraising.isPlain i hi)) fun i hi l hl => ?_
    rw [Instr.target?_of_isPlain (hraising.isPlain i hi)] at hl
    cases hl
  · intro args result t call _ _
    refine .zsuper (fun i hi => ?_) fun i hi l hl => ?_
    · obtain rfl := List.mem_singleton.mp hi
      rfl
    · obtain rfl := List.mem_singleton.mp hi
      cases hl
  · intro args result test e n s₁ s₂ s₃ t rest short long _ _ _ _ _
    refine .zsuper ?_ ?_
    · simp only [List.mem_cons, List.not_mem_nil, or_false]
      rintro i (rfl | rfl | rfl | rfl | rfl | rfl | rfl) <;> rfl
    · simp only [List.mem_cons, List.not_mem_nil, or_false]
      rintro i (rfl | rfl | rfl | rfl | rfl | rfl | rfl) l hl <;>
        simp only [Instr.target?, Option.some.injEq, reduceCtorEq] at hl <;> subst hl <;>
        simp only [placed_cons, Instr.label?, Option.toList_none, Option.toList_some, placed_nil,
          List.nil_append, List.cons_append, List.mem_cons, true_or, or_true]

theorem writes_apart {x : TrailM α} {r : Label} (hc : c.isSilent)
    (hx : x.Builds s { h with handed := [] } I fun _ _ _ xs => xs = []) :
    Builds (apart x) s h I fun _ _ k xs => Writes r h.handed c xs k.handed := by
  refine builds_apart (Builds.mono hx ?_)
  rintro _ t k _ - rfl
  exact .silent hc

end TrailM

namespace Code

open TrailM Session

theorem buildsOut_build (c : Code) : ∀ place, BuildsOut c (c.build place) := by
  induction c <;> intro place <;> apply built
  case done => exact fun _ => Builds.pure (.silent rfl)
  case seq first rest ihFirst ihRest => exact writesOut_seq (ihFirst place) (ihRest place)
  case mark => exact fun {s _} _ => Yields.mark trivial ⟨[], Emits.refl s, .silent rfl⟩
  case temp =>
    refine fun _ => builds_then_done (Builds.lift fun htemp => ?_)
    exact ⟨[], (takesTemp_of_temp htemp).toEmits, .silent rfl⟩
  case note line => exact fun _ => Builds.lift fun hnote => ⟨[], emits_of_noteLine hnote, .silent rfl⟩
  case emit i => exact fun _ => Builds.lift fun hemit => ⟨[i.1], emits_of_emit hemit, .emit⟩
  case call result type receiver name args given flags =>
    refine fun _ => builds_then_done (Builds.lift fun hcall => ?_)
    obtain ⟨-, refined, hemit⟩ := runs_call hcall
    exact ⟨_, hemit, .call⟩
  case jump target =>
    exact fun _ => writes_withHanded rfl fun hl hjump => ⟨_, emits_of_emit hjump, .jump hl⟩
  case branch op target value test =>
    exact fun _ => writes_withHanded rfl fun hl hbranch => ⟨_, emits_of_emit hbranch, .branch hl⟩
  case cond target value test =>
    refine fun _ => writes_withHanded rfl fun hl hcond => ?_
    obtain ⟨i, hi, hemit⟩ := emits_of_cond hcond
    exact ⟨[i], hemit, .cond hl hi⟩
  case condNe target value test =>
    exact fun _ => writes_withHanded rfl fun hl hbranch => ⟨_, emits_of_emit hbranch, .condNe hl⟩
  case ifElse value test yes no ihYes ihNo => exact writesOut_ifElse (ihYes place) (ihNo place)
  case ifNot value test body ih => exact writesOut_ifNot (ih place)
  case forLoop test increment body ihTest ihIncrement ihBody =>
    exact writesOut_forLoop (ihTest place) (ihIncrement place) (ihBody place)
  case times count body ih => exact writesOut_times fun i => ih i place
  case labelled stem body ih => exact writesOut_labelled (ih place)
  case loop condition value body goOn testFirst ihCondition ihBody =>
    exact fun hs => builds_then_done (writes_loop (ihCondition place) (ihBody place) hs)
  case ensure body value cleanup unused ihBody ihCleanup =>
    exact fun hs => builds_then_done (writes_ensure (ihBody place) (ihCleanup place) hs)
  case rescue body value handler handled ihBody ihHandler =>
    exact fun hs => builds_then_done (writes_rescue (ihBody place) (ihHandler place) hs)
  case «break» value =>
    refine fun hs => Builds.lift fun hbreak => ?_
    obtain ⟨xs, hxs⟩ := breaks_of_breakWith hbreak
    exact ⟨xs, hxs.emits, .exit rfl (balanced_of_breaks hs hxs)⟩
  case next value => exact fun hs => builds_next fun hnexts => .exit rfl (balanced_of_nexts hs hnexts)
  case redo =>
    refine fun _ => Builds.lift fun hredo => ?_
    obtain ⟨xs, hxs⟩ := redoes_of_redo hredo
    exact ⟨xs, hxs.emits, .exit rfl (balanced_of_redoes hxs)⟩
  case retry =>
    refine fun _ => Builds.lift fun hretry => ?_
    obtain ⟨frame, -, hemits⟩ := emits_of_retry hretry
    exact ⟨_, hemits, .exit rfl rfl⟩
  case «return» value =>
    refine fun hs => Builds.lift fun hreturn => ?_
    obtain ⟨xs, hxs⟩ := returns_of_returnWith hreturn
    exact ⟨xs, hxs.emits, .exit rfl (balanced_of_returns hs hxs)⟩
  case zsuper block => exact fun _ => builds_then_done writes_zsuper
  case block method body ih =>
    refine fun _ => writes_apart rfl (builds_block fun hopen => ?_)
    exact Builds.mono (ih _ (framed_of_fresh hopen.fresh)) fun _ _ _ _ _ _ => rfl
  case nested kind name body ih =>
    refine fun _ => writes_apart rfl (builds_child fun hopen => ?_)
    exact Builds.mono (ih _ (framed_of_fresh hopen.fresh)) fun _ _ _ _ _ _ => rfl

end Code

end ScopeIR
