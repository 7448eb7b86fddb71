import ScopeIR.Proofs.Accounts
import ScopeIR.Proofs.Strokes

/-! Single operations as sequences of motions. A motion is one of the few things that a builder can do
at once, and whatever a motion keeps, every operation keeps that a caller can go on after. -/

namespace ScopeIR

/-- Holds of copies of what it holds of, and of all that is not there on behalf of lines. -/
structure Usual (P : Instr → Prop) : Prop where
  rename {i : Instr} (ρ : Renaming) : P i → P (i.rename ρ)
  of_not_line {i : Instr} : i.isLine = false → P i

theorem Usual.lenient {P : Instr → Prop} (hP : Usual P) : Lenient P where
  rename := hP.rename
  plain hi := hP.of_not_line (Bool.or_eq_false_iff.mp hi).1

theorem usual_true : Usual fun _ => True := ⟨fun _ _ => trivial, fun _ => trivial⟩

theorem usual_not_line : Usual fun i => i.isLine = false where
  rename {i} ρ hi := by cases i <;> first | rfl | cases hi
  of_not_line hi := hi

/-- The builder has the same list, lines, variables and start label. The constructs that are open in
it, and its flags, may be others. -/
structure Builder.SameWork (b c : Builder) : Prop where
  scope : c.scope = b.scope
  borrowsTemps : c.borrowsTemps = b.borrowsTemps
  instrs : c.instrs = b.instrs
  line : c.line = b.line
  needsYieldBlock : c.needsYieldBlock = b.needsYieldBlock
  yieldClosure : c.yieldClosure = b.yieldClosure
  currentModule : c.currentModule = b.currentModule
  closureStart : c.closureStart = b.closureStart

namespace Session

variable {α β : Type} {P Q : Instr → Prop} {s t u : Session} {i : Instr} {value test : Operand}
  {frame : EnsureFrame}

/-- One motion of the builder at work. What it emits is as `P` says, and what it puts in front of the
scope's own list as `Q` says. -/
inductive Motion (P Q : Instr → Prop) (s : Session) : Session → Prop
  | label {stem : String} {l : Label} {t : Session} : s.Runs (newLabelNamed stem) l t → Motion P Q s t
  | temp {v : Variable} {t : Session} : s.Runs temp v t → Motion P Q s t
  | module {v : Variable} {t : Session} : s.Runs currentModuleVar v t → Motion P Q s t
  | yields {v : Variable} {t : Session} : s.Runs yieldClosureVar v t → Motion P Q s t
  | records {e : Event} {t : Session} : e.isQuiet → s.Runs (liftM (RegistryM.record e)) () t →
    Motion P Q s t
  | registers {c : ScopeId} {t : Session} : s.Runs (addClosure c) () t → Motion P Q s t
  | starts {l : Label} {t : Session} : s.Runs newClosureStart l t → Motion P Q s t
  | emits {i : Instr} {t : Session} : P i → s.Runs (emit i) () t → Motion P Q s t
  | prepends {i : Instr} {t : Session} : Q i → s.Runs (prepend i) () t → Motion P Q s t
  | arranges {b : Builder} : s.builder.SameWork b → (s.builder.Holds P → b.Holds P) →
    Motion P Q s { s with builder := b }

abbrev Motions (P Q : Instr → Prop) (s t : Session) : Prop := Relation.ReflTransGen (Motion P Q) s t

theorem holds_of_emit (hi : P i) {v : Unit} (h : s.Runs (emit i) v t) (hs : s.builder.Holds P) :
    t.builder.Holds P := by
  cases hbodies : s.builder.ensureBodies with
  | cons frame frames =>
    obtain rfl := (runs_emit_body hbodies).mp h
    refine hs.fill hs hbodies fun j hj => ?_
    rcases List.mem_append.mp hj with hj | hj
    · exact .inl hj
    · exact .inr (List.mem_singleton.mp hj ▸ hi)
  | nil =>
    have hemits := emits_of_emit h
    rw [Builder.Holds, hemits.sameStacks.ensures, hemits.bodies, hbodies, addToBody, ← hbodies]
    exact hs

theorem holds_of_emits (h : s.Emits t []) (hs : s.builder.Holds P) : t.builder.Holds P := by
  rw [Builder.Holds, h.sameStacks.ensures, h.bodies, addToBody_nil]
  exact hs

/-- Motions put nothing into the open constructs but what is as `P` says. -/
theorem Motion.holds (h : s.Motion P Q t) (hs : s.builder.Holds P) : t.builder.Holds P := by
  cases h with
  | label h => exact holds_of_emits (makesLabel_of_newLabelNamed h).toEmits hs
  | temp h => exact holds_of_emits (takesTemp_of_temp h).toEmits hs
  | module h => exact holds_of_emits (emits_of_currentModuleVar h) hs
  | yields h => exact holds_of_emits (emits_of_yieldClosureVar h).1 hs
  | records _ h => exact holds_of_emits (emits_of_record h) hs
  | registers h => exact holds_of_emits (emits_of_addClosure h) hs
  | emits hi h => exact holds_of_emit hi h hs
  | arranges _ hholds => exact hholds hs
  | starts h =>
    obtain ⟨-, rfl⟩ := runs_newClosureStart.mp h
    exact hs
  | prepends _ h =>
    obtain rfl := runs_prepend.mp h
    exact hs

theorem Motions.holds (h : s.Motions P Q t) (hs : s.builder.Holds P) : t.builder.Holds P := by
  induction h with
  | refl => exact hs
  | tail _ hstep ih => exact hstep.holds ih

theorem Uncatchable.yieldClosureVar : Uncatchable yieldClosureVar := by
  refine bind updateBuilder fun _ => bind current fun b => ?_
  cases b.yieldClosure with
  | some v => exact pure
  | none => exact bind temp fun _ => bind updateBuilder fun _ => pure

/-- Where a caller can go on after it, the action took motions only. -/
def Performs (P Q : Instr → Prop) (x : SessionM α) : Prop :=
  ∀ ⦃s t : Session⦄ ⦃v : Option α⦄, s.builder.Holds P → Workshop.settled x s = some (v, t) →
    s.Motions P Q t

namespace Performs

theorem bind {x : SessionM α} {f : α → SessionM β} (hx : Performs P Q x)
    (hf : ∀ a, Performs P Q (f a)) : Performs P Q (x >>= f) := by
  intro s t v hs h
  rcases Workshop.settled_bind h with ⟨e, he⟩ | ⟨a, u, hr, h⟩
  · exact hx hs (v := none) (by rw [Workshop.settled, he])
  · have hu := hx hs (v := some a) (by rw [Workshop.settled, hr])
    exact hu.trans (hf a (hu.holds hs) h)

/-- What changes nothing. -/
theorem still {x : SessionM α} (hx : ∀ s, (x s).2 = s) : Performs P Q x := by
  intro s t v _ h
  rw [Workshop.eq_of_settled h, hx s]

theorem pure {a : α} : Performs P Q (Pure.pure a) := still fun _ => rfl

theorem current : Performs P Q current := still fun _ => rfl

/-- What follows may rely on the open constructs. -/
theorem current_bind {f : Builder → SessionM β} (hf : ∀ b, b.Holds P → Performs P Q (f b)) :
    Performs P Q (Session.current >>= f) := by
  intro s t v hs h
  obtain ⟨_, u, hcurrent, h⟩ := Uncatchable.current.runs h
  obtain ⟨rfl, rfl⟩ := runs_current.mp hcurrent
  exact hf _ hs hs h

/-- A motion that raises no error. -/
theorem single {x : SessionM α} (hx : Uncatchable x)
    (h : ∀ {s t : Session} {a : α}, s.Runs x a t → s.Motion P Q t) : Performs P Q x := by
  intro s t v _ hv
  obtain ⟨a, ht⟩ := hx.runs_of_settled hv
  exact .single (h ht)

theorem newLabelNamed (stem : String) : Performs P Q (newLabelNamed stem) :=
  single .newLabelNamed .label

theorem temp : Performs P Q temp := single .temp .temp

theorem currentModuleVar : Performs P Q currentModuleVar := single .currentModuleVar .module

theorem yieldClosureVar : Performs P Q yieldClosureVar := single .yieldClosureVar .yields

theorem record {e : Event} (he : e.isQuiet) : Performs P Q (liftM (RegistryM.record e)) :=
  single .record (.records he)

theorem addClosure (closure : ScopeId) : Performs P Q (addClosure closure) :=
  single .addClosure .registers

theorem newClosureStart : Performs P Q newClosureStart :=
  single (.bind .current fun _ => .bind .updateBuilder fun _ => .pure) .starts

theorem emit {i : Instr} (hi : P i) : Performs P Q (emit i) := single .emit (.emits hi)

theorem prepend {i : Instr} (hi : Q i) : Performs P Q (prepend i) :=
  single (.bind .current fun _ => .bind .record fun _ => .updateBuilder) (.prepends hi)

theorem arrange {f : Builder → Builder} (hf : ∀ b : Builder, b.SameWork (f b))
    (hholds : ∀ b : Builder, b.Holds P → (f b).Holds P) : Performs P Q (updateBuilder f) := by
  intro s t v _ h
  rw [Workshop.eq_of_settled h]
  exact .single (.arranges (hf _) (hholds _))

/-- Which ensure bodies there are is left as it is. -/
theorem rearrange {f : Builder → Builder} (hf : ∀ b : Builder, b.SameWork (f b))
    (hensures : ∀ b, (f b).ensures = b.ensures)
    (hbodies : ∀ b, (f b).ensureBodies = b.ensureBodies) : Performs P Q (updateBuilder f) :=
  arrange hf fun b hb => by rwa [Builder.Holds, hensures, hbodies]

theorem insertFlags (flags : ScopeFlags) : Performs P Q (insertFlags flags) :=
  rearrange (fun _ => ⟨rfl, rfl, rfl, rfl, rfl, rfl, rfl, rfl⟩) (fun _ => rfl) fun _ => rfl

theorem emitAtBeginning {i : Instr} (hi : P i) (hfront : Q i) :
    Performs P Q (emitAtBeginning i) := by
  refine current_bind fun b hb => ?_
  cases hbodies : b.ensureBodies with
  | nil => exact prepend hfront
  | cons frame frames =>
    refine arrange (fun _ => ⟨rfl, rfl, rfl, rfl, rfl, rfl, rfl, rfl⟩) fun c hc => ?_
    refine hb.fill hc hbodies fun j hj => ?_
    rcases List.mem_cons.mp hj with rfl | hj
    · exact .inr hi
    · exact .inl hj

section Constructs

theorem pushLoop : Performs P Q pushLoop := by
  refine bind current fun _ => bind (rearrange ?_ (fun _ => rfl) fun _ => rfl) fun _ => ?_
  · exact fun _ => ⟨rfl, rfl, rfl, rfl, rfl, rfl, rfl, rfl⟩
  refine bind (newLabelNamed _) fun _ => bind (newLabelNamed _) fun _ => ?_
  refine bind (newLabelNamed _) fun _ => bind (newLabelNamed _) fun _ => bind temp fun _ => ?_
  refine bind (insertFlags _) fun _ => bind (rearrange ?_ (fun _ => rfl) fun _ => rfl) fun _ => pure
  exact fun _ => ⟨rfl, rfl, rfl, rfl, rfl, rfl, rfl, rfl⟩

theorem pushEnsure (hframe : ∀ i ∈ frame.instrs, P i) : Performs P Q (pushEnsure frame) :=
  arrange (fun _ => ⟨rfl, rfl, rfl, rfl, rfl, rfl, rfl, rfl⟩) fun _ hb => hb.pushEnsure hframe

theorem enterEnsureBody (hframe : ∀ i ∈ frame.instrs, P i) :
    Performs P Q (enterEnsureBody frame) :=
  arrange (fun _ => ⟨rfl, rfl, rfl, rfl, rfl, rfl, rfl, rfl⟩) fun _ hb => hb.enterBody hframe

theorem popEnsure : Performs P Q popEnsure := by
  refine current_bind fun b hb => bind (arrange ?_ fun c hc => hb.popEnsure hc) fun _ => pure
  exact fun _ => ⟨rfl, rfl, rfl, rfl, rfl, rfl, rfl, rfl⟩

theorem exitEnsureBody : Performs P Q exitEnsureBody := by
  refine current_bind fun b hb => bind (arrange ?_ fun c hc => hb.exitBody hc) fun _ => pure
  exact fun _ => ⟨rfl, rfl, rfl, rfl, rfl, rfl, rfl, rfl⟩

end Constructs

end Performs

/-- Each basic action is a motion or changes nothing. -/
theorem Made.motions {F : ScopeFlags → Prop} {x : SessionM α} {v : Option α}
    (h : s.Made P Q F x) (hs : s.builder.Holds P) (hv : Workshop.settled x s = some (v, t)) :
    s.Motions P Q t := by
  induction h generalizing t with
  | still hx => rw [Workshop.eq_of_settled hv, hx]
  | bind _ _ ihx ihf =>
    rcases Workshop.settled_bind hv with ⟨e, he⟩ | ⟨a, u, hr, hv⟩
    · exact ihx hs (v := none) (by rw [Workshop.settled, he])
    · have hu := ihx hs (v := some a) (by rw [Workshop.settled, hr])
      exact hu.trans (ihf hr (hu.holds hs) hv)
  | newLabelNamed => exact Performs.newLabelNamed _ hs hv
  | temp => exact Performs.temp hs hv
  | currentModuleVar => exact Performs.currentModuleVar hs hv
  | yieldClosureVar => exact Performs.yieldClosureVar hs hv
  | newClosureStart => exact Performs.newClosureStart hs hv
  | record he => exact Performs.record he hs hv
  | addClosure => exact Performs.addClosure _ hs hv
  | emit hi => exact Performs.emit hi hs hv
  | prepend hi => exact Performs.prepend hi hs hv
  | insertFlags => exact Performs.insertFlags _ hs hv

end Session

namespace Act

open Session

/-- The operation may put the instruction in front of the scope's own list. -/
def MayPrepend (i : Instr) : Act → Prop
  | emitAtBeginning j => i = j
  | redo => ∃ l, i = .label l
  | _ => False

/-- The line that is noted. -/
def noted? : Act → Option Int32
  | note line => some line
  | _ => none

theorem mayPrepend_of_marksStart {a : Act} {s : Session} (h : a.marksStart s) :
    a.MayPrepend (.label s.builder.scope.startLabel) := by
  cases a with
  | redo => exact ⟨_, rfl⟩
  | _ => cases h

theorem motions_of_made {P Q : Instr → Prop} {a : Act} (hP : Usual P) (ha : a.isDirect = false)
    (hgiven : ∀ i ∈ a.given, P i) (hfront : ∀ i, a.MayPrepend i → Q i) : Performs P Q a.run := by
  intro s t v hs h
  have hwithin : a.Within P Q (fun _ => True) s :=
    { breakOut := fun _ _ _ _ => hP.of_not_line rfl
      nonlocalReturn := fun _ _ _ _ => hP.of_not_line rfl
      given := hgiven
      ensures := fun f hf => hs f (List.mem_append_left _ hf)
      start := fun h => hfront _ (mayPrepend_of_marksStart h)
      loops := fun _ => trivial
      supers := fun _ => trivial }
  exact (made hP.lenient hwithin ha).motions hs h

/-- Every operation that a caller can go on after is a sequence of motions, if it is not a note. -/
theorem performs {P Q : Instr → Prop} {a : Act} (hP : Usual P) (hnoted : a.noted? = none)
    (hgiven : ∀ i ∈ a.given, P i) (hfront : ∀ i, a.MayPrepend i → Q i) : Performs P Q a.run := by
  have hunit {α : Type} {x : SessionM α} (hx : Performs P Q x) : Performs P Q (do let _ ← x) :=
    hx.bind fun _ => .pure
  cases a with
  | note => cases hnoted
  | emitAtBeginning i =>
    exact .emitAtBeginning (hgiven i (List.mem_singleton_self i)) (hfront i rfl)
  | setCoverage | setMethodName | setEvalType | pushRescue | pushRescuer =>
    intro s t v _ h
    rw [Workshop.eq_of_settled h]
    exact .single (.arranges ⟨rfl, rfl, rfl, rfl, rfl, rfl, rfl, rfl⟩ id)
  | popRescue | popRescuer | popLoop =>
    refine hunit (.bind .current fun _ => .bind (.arrange ?_ fun _ => id) fun _ => .pure)
    exact fun _ => ⟨rfl, rfl, rfl, rfl, rfl, rfl, rfl, rfl⟩
  | pushLoop => exact hunit .pushLoop
  | pushEnsure frame => exact .pushEnsure hgiven
  | popEnsure => exact hunit .popEnsure
  | enterEnsureBody frame => exact .enterEnsureBody hgiven
  | exitEnsureBody => exact hunit .exitEnsureBody
  | _ => exact motions_of_made hP rfl hgiven hfront

end Act

end ScopeIR
