import ScopeIR.Proofs.Nested
import ScopeIR.Proofs.Placement

/-! How the lists of constructs are laid out: what stands around the parts of each one, and where ensure
bodies are copied. -/

namespace ScopeIR

/-- The regions that are open after the instruction, innermost first. There are none if it closes one
where none is open. -/
def Instr.regions (opened : List Label) : Instr → Option (List Label)
  | .regionStart l => some (l :: opened)
  | .regionEnd =>
    match opened with
    | [] => none
    | _ :: outer => some outer
  | _ => some opened

def regions (opened : List Label) (xs : List Instr) : Option (List Label) :=
  xs.foldlM Instr.regions opened

/-- Moves control, perhaps, and does nothing else. -/
def Instr.isMove : Instr → Bool
  | .jump _ | .branch .. | .nop => true
  | _ => false

/-- Goes to a label at hand, without which nothing is built. -/
def Code.isMove : Code → Bool
  | jump _ | branch .. | cond .. | condNe .. => true
  | _ => false

/-- Neither starts nor ends a region. -/
def Instr.isInside : Instr → Bool
  | .regionStart _ | .regionEnd => false
  | _ => true

/-- Every region that is started is ended, and no other one. -/
def Balanced (xs : List Instr) : Prop := regions [] xs = some []

section Regions

variable {opened opened' outer : List Label} {i : Instr} {l : Label} {xs ys : List Instr}

theorem Instr.isInside_of_isPlain (h : i.isPlain) : i.isInside := by
  cases i <;> first | rfl | cases h

theorem Instr.isInside_of_isMove (h : i.isMove) : i.isInside := by
  cases i <;> first | rfl | cases h

@[simp] theorem regions_nil : regions opened [] = some opened := rfl

theorem regions_append : regions opened (xs ++ ys) = (regions opened xs).bind (regions · ys) :=
  List.foldlM_append

theorem regions_cons : regions opened (i :: xs) = (i.regions opened).bind (regions · xs) := rfl

theorem regions_inside (h : i.isInside) : regions opened (i :: xs) = regions opened xs := by
  cases i <;> first | rfl | cases h

@[simp] theorem regions_start : regions opened (.regionStart l :: xs) = regions (l :: opened) xs := rfl

@[simp] theorem regions_end : regions (l :: opened) (.regionEnd :: xs) = regions opened xs := rfl

/-- Regions further outside stay open. -/
theorem regions_outer (h : regions opened xs = some opened') :
    regions (opened ++ outer) xs = some (opened' ++ outer) := by
  -- with whatever is open inside, which is closed before anything further outside
  induction xs generalizing opened with
  | nil =>
    obtain rfl := Option.some.inj h
    rfl
  | cons i xs ih =>
    rw [regions_cons] at h ⊢
    obtain ⟨inner, hi, h⟩ := Option.bind_eq_some_iff.mp h
    have hi : i.regions (opened ++ outer) = some (inner ++ outer) := by
      cases i with
      | regionStart l =>
        obtain rfl := Option.some.inj hi
        rfl
      | regionEnd =>
        cases opened with
        | nil => cases hi
        | cons l opened =>
          obtain rfl := Option.some.inj hi
          rfl
      | _ =>
        obtain rfl := Option.some.inj hi
        rfl
    rw [hi]
    exact ih h

theorem regions_withoutLines : regions opened (withoutLines xs) = regions opened xs := by
  induction xs generalizing opened with
  | nil => rfl
  | cons i xs ih =>
    unfold withoutLines at ih ⊢
    rw [List.filter_cons]
    split
    · rw [regions_cons, regions_cons]
      exact Option.bind_congr fun _ _ => ih
    · next hline =>
      have hinside : i.isInside := by
        cases i <;> first | rfl | exact absurd rfl hline
      rw [ih, regions_inside hinside]

namespace Balanced

theorem regions_eq (h : Balanced xs) : regions opened xs = some opened := regions_outer h

theorem nil : Balanced [] := rfl

theorem append (hx : Balanced xs) (hy : Balanced ys) : Balanced (xs ++ ys) := by
  rw [Balanced, regions_append, hx, Option.bind_some, hy]

theorem cons (hi : i.isInside) (h : Balanced xs) : Balanced (i :: xs) := by
  rw [Balanced, regions_inside hi, h]

theorem region (hx : Balanced xs) (hy : Balanced ys) :
    Balanced (.regionStart l :: xs ++ .regionEnd :: ys) := by
  rw [Balanced, List.cons_append, regions_start, regions_append, hx.regions_eq, Option.bind_some,
    regions_end, hy]

theorem of_inside (h : ∀ i ∈ xs, i.isInside) : Balanced xs := by
  induction xs with
  | nil => exact .nil
  | cons i xs ih => exact .cons (h i List.mem_cons_self) (ih fun j hj => h j (List.mem_cons_of_mem _ hj))

theorem map_rename (h : Balanced xs) (ρ : Renaming) : Balanced (xs.map (·.rename ρ)) := by
  have hmap : ∀ {opened opened'}, regions opened xs = some opened' →
      regions (opened.map ρ.label) (xs.map (·.rename ρ)) = some (opened'.map ρ.label) := by
    clear h
    induction xs with
    | nil =>
      intro opened opened' h
      obtain rfl := Option.some.inj h
      rfl
    | cons i xs ih =>
      intro opened opened' h
      rw [regions_cons] at h
      obtain ⟨inner, hi, h⟩ := Option.bind_eq_some_iff.mp h
      have hi : (i.rename ρ).regions (opened.map ρ.label) = some (inner.map ρ.label) := by
        cases i with
        | regionEnd =>
          cases opened with
          | nil => cases hi
          | cons l opened =>
            obtain rfl := Option.some.inj hi
            rfl
        | _ =>
          obtain rfl := Option.some.inj hi
          rfl
      rw [List.map_cons, regions_cons, hi]
      exact ih h
  exact hmap h

end Balanced

end Regions

/-- What the code around knows, where code is built. -/
structure Site where
  kind : ScopeKind
  rescuer : Label
  rescues : List RescueFrame
  ensures : List EnsureFrame
  loops : List LoopFrame

namespace Site

def inLoop (σ : Site) (frame : LoopFrame) : Site := { σ with loops := frame :: σ.loops }

/-- In a body that is protected by the frame. -/
def inEnsure (σ : Site) (frame : EnsureFrame) : Site :=
  { σ with rescuer := frame.dummyRescue, ensures := frame :: σ.ensures }

def inRescue (σ : Site) (rescuer : Label) : Site := { σ with rescuer }

def inHandler (σ : Site) (frame : RescueFrame) : Site := { σ with rescues := frame :: σ.rescues }

end Site

/-- Temporaries have images that are temporaries, and nothing else is renamed. -/
structure Renaming.KeepsNames (ρ : Renaming) : Prop where
  temp {v : Variable} : v.isTemp → (ρ.var v).isTemp
  other {v : Variable} : v.isTemp = false → ρ.var v = v

/-- A copy of the frame's body, with new names for what is written and placed in it. -/
inductive IsCopy (frame : EnsureFrame) : List Instr → Prop
  | empty : frame.instrs = [] → IsCopy frame []
  | full {ρ : Renaming} : ρ.KeepsNames → ρ.label frame.rescuer = frame.rescuer →
    IsCopy frame (frame.copy ρ)

/-- Copies of the bodies one after the other. -/
inductive AreCopies : List EnsureFrame → List Instr → Prop
  | nil : AreCopies [] []
  | cons {frame : EnsureFrame} {frames : List EnsureFrame} {xs ys : List Instr} :
    IsCopy frame xs → AreCopies frames ys → AreCopies (frame :: frames) (xs ++ ys)

open Session in
/-- The list of structured code at its site. -/
inductive Laid : Site → Code → List Instr → Prop
  | done {σ : Site} : Laid σ .done []
  | seq {σ : Site} {first rest : Code} {xs ys : List Instr} : Laid σ first xs → Laid σ rest ys →
    Laid σ (.seq first rest) (xs ++ ys)
  | mark {σ : Site} : Laid σ .mark []
  | temp {σ : Site} : Laid σ .temp []
  | note {σ : Site} {line : Int32} : Laid σ (.note line) []
  | emit {σ : Site} {i : { i : Instr // i.isPlain }} : Laid σ (.emit i) [i.1]
  | call {σ : Site} {result : Variable} {type : CallType} {receiver : Operand} {name : Symbol}
      {args : List Operand} {block : Operand} {flags : CallFlags} {refined : Bool} :
    Laid σ (.call result type receiver name args block flags)
      [.call ⟨type, some result, name, receiver, args, block, flags, refined⟩]
  | move {σ : Site} {c : Code} {xs : List Instr} : c.isMove → (∀ i ∈ xs, i.isMove) → Laid σ c xs
  | ifElse {σ : Site} {value test : Operand} {yes no : Code} {xs ys : List Instr}
      {elseLabel endLabel : Label} : Laid σ yes xs → Laid σ no ys →
    Laid σ (.ifElse value test yes no) (.branchUnlessEqual elseLabel value test :: xs ++
      .jump endLabel :: .label elseLabel :: ys ++ [.label endLabel])
  | loopFirst {σ : Site} {condition body : Code} {value : Operand} {goOn : Bool} {frame : LoopFrame}
      {setResult : Label} {i : Instr} {xs ys : List Instr} :
    (∀ f ∈ σ.ensures, f.innermostLoop ≠ some frame.id) →
    Instr.branchIf? value (.boolean !goOn) setResult = some i →
    Laid (σ.inLoop frame) condition xs → Laid (σ.inLoop frame) body ys →
    Laid σ (.loop condition value body goOn true) (.label frame.loopStart :: xs ++
      i :: .label frame.iterStart :: .threadPoll :: ys ++
      [.label frame.iterEnd, .jump frame.loopStart, .label setResult, .copy frame.result .nil,
        .label frame.loopEnd])
  | loopLast {σ : Site} {condition body : Code} {value : Operand} {goOn : Bool} {frame : LoopFrame}
      {setResult : Label} {i : Instr} {xs ys : List Instr} :
    (∀ f ∈ σ.ensures, f.innermostLoop ≠ some frame.id) →
    Instr.branchIf? value (.boolean goOn) frame.iterStart = some i →
    Laid (σ.inLoop frame) body xs → Laid (σ.inLoop frame) condition ys →
    Laid σ (.loop condition value body goOn false) (.label frame.loopStart ::
      .label frame.iterStart :: .threadPoll :: xs ++ .label frame.iterEnd :: ys ++
      [i, .label setResult, .copy frame.result .nil, .label frame.loopEnd])
  /-- The body stands under the rescuer of its site, behind the code that it protects. -/
  | ensure {σ : Site} {body cleanup : Code} {value unused : Operand} {frame : EnsureFrame}
      {result exception : Variable} {xs cs : List Instr} :
    frame.rescuer = σ.rescuer → frame.innermostLoop = σ.loops.head?.map (·.id) →
    Laid σ cleanup frame.instrs → Laid (σ.inEnsure frame) body xs → IsCopy frame cs →
    Laid σ (.ensure body value cleanup unused) (.label frame.regionStart ::
      .regionStart frame.dummyRescue :: xs ++ .regionEnd :: .copy result value :: cs ++
      .jump frame.bodyEnd :: .label frame.dummyRescue :: .receiveException exception ::
      .label frame.bodyStart :: frame.instrs ++ [.raise exception, .label frame.bodyEnd])
  | rescue {σ : Site} {body handler : Code} {value handled : Operand} {frame : RescueFrame}
      {rescuer after : Label} {result exception : Variable} {xs ys : List Instr} :
    Laid (σ.inRescue rescuer) body xs → Laid (σ.inHandler frame) handler ys →
    Laid σ (.rescue body value handler handled)
      (.getGlobal frame.savedException BuildT.currentException :: .label frame.entry ::
        .regionStart rescuer :: xs ++ .regionEnd :: .copy result value :: .jump after ::
        .label rescuer :: .receiveException exception :: ys ++
        [.copy result handled, .label after])
  | breakLoop {σ : Site} {value : Operand} {frame : LoopFrame} {cs : List Instr} :
    σ.loops.head? = some frame → AreCopies (passedEnsures (some frame.id) σ.ensures) cs →
    Laid σ (.break value) (cs ++ [.copy frame.result value, .jump frame.loopEnd])
  | breakBlock {σ : Site} {value : Operand} {parent : ScopeId} : σ.loops = [] → σ.kind.isClosure →
    Laid σ (.break value) [.breakOut value parent]
  | nextLoop {σ : Site} {value : Operand} {frame : LoopFrame} {cs : List Instr} :
    σ.loops.head? = some frame → AreCopies (passedEnsures (some frame.id) σ.ensures) cs →
    Laid σ (.next value) (cs ++ [.jump frame.iterEnd])
  | nextBlock {σ : Site} {value : Operand} {cs : List Instr} : σ.loops = [] → σ.kind.isClosure →
    AreCopies σ.ensures cs → Laid σ (.next value) (cs ++ [.threadPoll, .ret value])
  | redoLoop {σ : Site} {frame : LoopFrame} : σ.loops.head? = some frame →
    Laid σ .redo [.jump frame.iterStart]
  | redoBlock {σ : Site} {start : Label} : σ.loops = [] → Laid σ .redo [.threadPoll, .jump start]
  | retry {σ : Site} {frame : RescueFrame} : σ.rescues.head? = some frame →
    Laid σ .retry [.threadPoll, .putGlobal BuildT.currentException frame.savedException,
      .jump frame.entry]
  | returnTransfer {σ : Site} {value : Operand} {xs : List Instr} : σ.kind ≠ .method →
    (∀ i ∈ xs, i.isPlain) → Laid σ (.return value) xs
  | returnPlain {σ : Site} {value : Operand} : σ.ensures = [] → Laid σ (.return value) [.ret value]
  | returnCopies {σ : Site} {value : Operand} {result : Variable} {cs : List Instr} :
    AreCopies σ.ensures cs → Laid σ (.return value) (.copy result value :: cs ++ [.ret result])

theorem EnsureFrame.balanced_copy {frame : EnsureFrame} (h : Balanced frame.instrs) (ρ : Renaming) :
    Balanced (frame.copy ρ) := .cons rfl ((h.map_rename ρ).region .nil)

theorem IsCopy.balanced {frame : EnsureFrame} {cs : List Instr} (h : IsCopy frame cs)
    (hframe : Balanced frame.instrs) : Balanced cs := by
  cases h with
  | empty _ => exact .nil
  | full _ _ => exact frame.balanced_copy hframe _

theorem AreCopies.balanced {frames : List EnsureFrame} {cs : List Instr} (h : AreCopies frames cs)
    (hframes : ∀ f ∈ frames, Balanced f.instrs) : Balanced cs := by
  induction h with
  | nil => exact .nil
  | cons h _ ih =>
    exact (h.balanced (hframes _ List.mem_cons_self)).append
      (ih fun f hf => hframes f (List.mem_cons_of_mem _ hf))

theorem isMove_branchUnlessEqual {target : Label} {value test : Operand} :
    (Instr.branchUnlessEqual target value test).isMove := by
  unfold Instr.branchUnlessEqual
  split <;> rfl

theorem isMove_of_branchIf {target : Label} {value test : Operand} {i : Instr}
    (hi : Instr.branchIf? value test target = some i) : i.isMove := by
  rcases branchIf?_cases hi with rfl | rfl | ⟨op, rfl⟩ <;> rfl

namespace Laid

variable {σ : Site} {c : Code} {xs : List Instr}

open Session in
/-- Regions are ended in the construct that starts them. -/
theorem balanced (h : Laid σ c xs) (hσ : ∀ f ∈ σ.ensures, Balanced f.instrs) : Balanced xs := by
  have hpassed : ∀ {σ : Site} {loop : Option LoopId}, (∀ f ∈ σ.ensures, Balanced f.instrs) →
      ∀ f ∈ passedEnsures loop σ.ensures, Balanced f.instrs :=
    fun hσ f hf => hσ f (mem_of_mem_passedEnsures hf)
  induction h with
  | done | mark | temp | note => exact .nil
  | seq _ _ ihFirst ihRest => exact (ihFirst hσ).append (ihRest hσ)
  | @emit _ i => exact .cons (Instr.isInside_of_isPlain i.2) .nil
  | call | breakBlock | redoLoop | redoBlock | retry | returnPlain => exact rfl
  | move _ hmoves => exact .of_inside fun i hi => Instr.isInside_of_isMove (hmoves i hi)
  | ifElse _ _ ihYes ihNo =>
    refine .append (.append ((ihYes hσ).cons (Instr.isInside_of_isMove isMove_branchUnlessEqual)) ?_) rfl
    exact ((ihNo hσ).cons rfl).cons rfl
  | loopFirst _ hi _ _ ihCondition ihBody =>
    refine .append (.append ((ihCondition hσ).cons rfl) ?_) rfl
    exact (((ihBody hσ).cons rfl).cons rfl).cons (Instr.isInside_of_isMove (isMove_of_branchIf hi))
  | loopLast _ hi _ _ ihBody ihCondition =>
    refine .append (.append ((((ihBody hσ).cons rfl).cons rfl).cons rfl) ?_) ?_
    · exact (ihCondition hσ).cons rfl
    · exact .cons (Instr.isInside_of_isMove (isMove_of_branchIf hi)) rfl
  | ensure _ _ _ _ hcopy ihCleanup ihBody =>
    have hcleanup := ihCleanup hσ
    have hbody := ihBody (List.forall_mem_cons.mpr ⟨hcleanup, hσ⟩)
    refine .append (.append (.cons rfl (hbody.region ((hcopy.balanced hcleanup).cons rfl))) ?_) rfl
    exact (((hcleanup.cons rfl).cons rfl).cons rfl).cons rfl
  | rescue _ _ ihBody ihHandler =>
    refine .append (.cons rfl (.cons rfl ((ihBody hσ).region ?_))) rfl
    exact ((((ihHandler hσ).cons rfl).cons rfl).cons rfl).cons rfl
  | breakLoop _ hcopies => exact (hcopies.balanced (hpassed hσ)).append rfl
  | nextLoop _ hcopies => exact (hcopies.balanced (hpassed hσ)).append rfl
  | nextBlock _ _ hcopies => exact (hcopies.balanced hσ).append rfl
  | returnTransfer _ hplain => exact .of_inside fun i hi => Instr.isInside_of_isPlain (hplain i hi)
  | returnCopies hcopies => exact ((hcopies.balanced hσ).cons rfl).append rfl

end Laid

end ScopeIR
