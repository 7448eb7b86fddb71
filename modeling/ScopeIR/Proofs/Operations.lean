import ScopeIR.Proofs.Placement
import ScopeIR.Proofs.Workshop

/-! What single operations are made of. Those that open and close nothing take few basic actions, one
after the other. What each basic action keeps every such operation keeps, whether it succeeds or not. -/

namespace ScopeIR

/-- Moves control to another scope. -/
def Instr.isTransfer : Instr → Bool
  | .breakOut .. | .nonlocalReturn .. => true
  | _ => false

/-- The events that nobody counts or listens to. -/
def Event.isQuiet : Event → Bool
  | .instrAdded .. | .builderOpened _ => false
  | _ => true

/-- Holds of copies of what it holds of, and of all that operations emit on their own, but for lines
and for moves to another scope. -/
structure Lenient (P : Instr → Prop) : Prop where
  rename {i : Instr} (ρ : Renaming) : P i → P (i.rename ρ)
  plain {i : Instr} : (i.isLine || i.isTransfer) = false → P i

theorem lenient_true : Lenient fun _ => True := ⟨fun _ _ => trivial, fun _ => trivial⟩

namespace Session

variable {α β : Type} {P Q : Instr → Prop} {F : ScopeFlags → Prop} {s t : Session} {i : Instr}
  {value test : Operand} {frame : EnsureFrame}

/-- Breaks and returns of the scope at work are as `P` says. -/
structure Transfers (P : Instr → Prop) (s : Session) : Prop where
  breakOut {x : Scope} {p : ScopeId} (value : Operand) :
    s.registry.scope? s.builder.scope = some x → x.kind.isClosure → x.parent = some p →
      P (.breakOut value p)
  nonlocalReturn {x : Scope} (value : Operand) (method : Option Symbol) :
    s.registry.scope? s.builder.scope = some x → x.kind.isClosureLike ∨ x.kind.isModuleBody →
      P (.nonlocalReturn value method)

/-- Where the body of the scope starts again is not marked yet. -/
def Unmarked (s : Session) : Prop :=
  s.builder.loops = [] ∧ s.builder.closureStart = none ∧
    ∃ x ∈ s.registry.scope? s.builder.scope, x.kind.isClosure

instance : Decidable s.Unmarked := inferInstanceAs (Decidable (_ ∧ _ ∧ _))

/-- From here on the action consists of basic ones, however it ends. What they emit is as `P` says,
what they put in front of the scope's own list as `Q` says, and the flags that they set as `F` says. -/
inductive Made (P Q : Instr → Prop) (F : ScopeFlags → Prop) :
    {α : Type} → Session → SessionM α → Prop
  /-- Looks at what there is, or fails. -/
  | still {α : Type} {s : Session} {x : SessionM α} : (x s).2 = s → Made P Q F s x
  | bind {α β : Type} {s : Session} {x : SessionM α} {f : α → SessionM β} : Made P Q F s x →
    (∀ {a t}, s.Runs x a t → Made P Q F t (f a)) → Made P Q F s (x >>= f)
  | newLabelNamed {s : Session} {stem : String} : Made P Q F s (newLabelNamed stem)
  | temp {s : Session} : Made P Q F s temp
  | currentModuleVar {s : Session} : Made P Q F s currentModuleVar
  | yieldClosureVar {s : Session} : Made P Q F s yieldClosureVar
  | newClosureStart {s : Session} : Made P Q F s newClosureStart
  | record {s : Session} {e : Event} : e.isQuiet → Made P Q F s (liftM (RegistryM.record e))
  | addClosure {s : Session} {closure : ScopeId} : Made P Q F s (addClosure closure)
  | emit {s : Session} {i : Instr} : P i → Made P Q F s (emit i)
  | prepend {s : Session} {i : Instr} : Q i → Made P Q F s (prepend i)
  | insertFlags {s : Session} {flags : ScopeFlags} : F flags → Made P Q F s (insertFlags flags)

/-- What a sequence leaves behind is what its parts lead to, one after the other, or the first alone
if that fails. -/
theorem leads_bind {R : Session → Session → Prop} (htrans : ∀ {t}, R s t → ∀ {u}, R t u → R s u)
    {x : SessionM α} {f : α → SessionM β} (hx : R s (x s).2)
    (hf : ∀ {a t}, s.Runs x a t → R t (f a t).2) : R s ((x >>= f) s).2 := by
  rw [bind_apply]
  rcases hr : x s with ⟨e | a, t⟩
  · rwa [hr] at hx
  · rw [hr] at hx
    exact htrans hx (hf hr)

section Still

theorem made_pure {a : α} : s.Made P Q F (pure a) := .still rfl

theorem made_throw {e : Fault} : s.Made P Q F (throw e : SessionM α) := .still rfl

theorem made_current : s.Made P Q F current := .still rfl

theorem made_get : s.Made P Q F get := .still rfl

theorem made_except {x : Except Fault α} : s.Made P Q F (liftM x) :=
  .still (by cases x <;> rfl)

theorem made_scope {id : ScopeId} : s.Made P Q F (liftM (RegistryM.scope id)) := by
  refine .still ?_
  rw [liftM_apply]
  split
  · next hr =>
    obtain ⟨-, rfl⟩ := Registry.runs_scope.mp hr
    rfl
  · rfl

theorem made_ownScope : s.Made P Q F ownScope := .bind made_current fun _ => made_scope

theorem made_place : s.Made P Q F place :=
  .bind made_ownScope fun _ => .bind made_current fun _ => .bind made_except fun _ => made_pure

theorem made_invalid {exit : Exit} : s.Made P Q F (invalid exit : SessionM α) :=
  .bind made_place fun _ => made_throw

theorem made_escaping {exit : Exit} : s.Made P Q F (escaping exit : SessionM α) :=
  .bind made_place fun _ => made_throw

theorem made_isTopScope : s.Made P Q F isTopScope :=
  .bind made_get fun _ => .bind made_current fun _ => .bind made_except fun _ =>
    .bind made_except fun _ => .bind made_except fun _ => made_pure

theorem made_forwardedArgs : s.Made P Q F forwardedArgs? := by
  rw [forwardedArgs?_eq]
  exact .bind made_get fun _ => made_except

end Still

theorem made_emitResult (hi : P i) : s.Made P Q F (emitResult i) := by
  unfold emitResult
  split
  · exact made_throw
  · exact .bind (.emit hi) fun _ => made_pure

theorem made_newEnsure : s.Made P Q F newEnsure :=
  .bind .newLabelNamed fun _ => .bind .newLabelNamed fun _ => .bind .newLabelNamed fun _ =>
    .bind .newLabelNamed fun _ => .bind made_current fun _ => made_pure

theorem made_forIn (xs : List α) {f : α → SessionM (ForInStep PUnit)}
    (hf : ∀ a ∈ xs, ∀ {u : Session}, u.Made P Q F (f a)) {v : PUnit} :
    s.Made P Q F (forIn xs v fun a _ => f a) := by
  induction xs generalizing s v with
  | nil => exact made_pure
  | cons a xs ih =>
    rw [List.forIn_cons]
    refine .bind (hf a List.mem_cons_self) fun {step _} _ => ?_
    cases step with
    | done => exact made_pure
    | yield => exact ih fun b hb => hf b (List.mem_cons_of_mem _ hb)

section Copies

/-- A fresh name for the label that the instruction places. -/
def freshenLabel (ρ : Renaming) : Instr → SessionM Renaming
  | .label l => do return ρ.insertLabel l (← newLabel)
  | _ => return ρ

/-- A fresh name for the temporary that the instruction writes, unless it has one. -/
def freshenResult (ρ : Renaming) (i : Instr) : SessionM Renaming :=
  match i.result? with
  | some v => if v.isTemp && !ρ.hasVar v then do return ρ.insertVar v (← temp) else return ρ
  | none => return ρ

theorem freshen_eq {ρ : Renaming} : freshen ρ i = (do freshenResult (← freshenLabel ρ i) i) := by
  cases i with
  | label l => exact (bind_assoc newLabel _ fun ρ => freshenResult ρ (.label l)).symm
  | _ => rfl

theorem made_freshen {ρ : Renaming} : s.Made P Q F (freshen ρ i) := by
  have hlabel : s.Made P Q F (freshenLabel ρ i) := by
    unfold freshenLabel
    split
    · exact .bind .newLabelNamed fun _ => made_pure
    · exact made_pure
  rw [freshen_eq]
  refine .bind hlabel fun _ => ?_
  unfold freshenResult
  split
  · split
    · exact .bind .temp fun _ => made_pure
    · exact made_pure
  · exact made_pure

theorem made_foldlM_freshen {xs : List Instr} {ρ : Renaming} :
    s.Made P Q F (xs.foldlM freshen ρ) := by
  induction xs generalizing s ρ with
  | nil => exact made_pure
  | cons i xs ih => exact .bind made_freshen fun _ => ih

end Copies

section Lenient

variable (hP : Lenient P)
include hP

theorem made_plain (hi : (i.isLine || i.isTransfer) = false) : s.Made P Q F (emit i) :=
  .emit (hP.plain hi)

theorem made_cond {target : Label} : s.Made P Q F (cond target value test) := by
  refine .bind made_except fun {i _} hbranch => made_plain hP ?_
  have hi : Instr.branchIf? value test target = some i := by
    obtain ⟨hi, -⟩ := runs_liftM_except.mp hbranch
    cases hb : Instr.branchIf? value test target <;> simp only [branchIf, hb, reduceCtorEq] at hi
    rw [Except.ok.inj hi]
  rcases branchIf?_cases hi with rfl | rfl | ⟨op, rfl⟩ <;> exact rfl

theorem made_condNe {target : Label} : s.Made P Q F (condNe target value test) := by
  refine made_plain hP ?_
  unfold Instr.branchUnlessEqual
  split <;> exact rfl

theorem made_copyEnsure (hframe : ∀ i ∈ frame.instrs, P i) : s.Made P Q F (copyEnsure frame) := by
  unfold copyEnsure
  split
  · exact made_pure
  refine .bind .newLabelNamed fun _ => .bind made_foldlM_freshen fun {ρ _} _ => ?_
  refine .bind made_current fun _ => .bind (.record rfl) fun _ => ?_
  refine .bind (made_plain hP rfl) fun _ => .bind (made_plain hP rfl) fun _ => ?_
  refine .bind (made_forIn _ fun i hi u => ?_) fun _ => made_plain hP rfl
  have hi : P (i.rename ρ) := hP.rename ρ (hframe i hi)
  dsimp only
  split
  · exact .bind .addClosure fun _ => .bind (.emit hi) fun _ => made_pure
  · exact .bind (.emit hi) fun _ => made_pure

theorem made_copyEnsures {loop : Option LoopId}
    (hs : ∀ frame ∈ s.builder.ensures, ∀ i ∈ frame.instrs, P i) :
    s.Made P Q F (copyEnsures loop) := by
  refine .bind made_current fun hcurrent => ?_
  obtain ⟨rfl, rfl⟩ := runs_current.mp hcurrent
  refine .bind (made_forIn _ fun frame hframe u => ?_) fun _ => made_pure
  exact .bind (made_copyEnsure hP (hs frame (mem_of_mem_passedEnsures hframe))) fun _ => made_pure

theorem made_emitEnsureBody (hframe : ∀ i ∈ frame.instrs, P i) :
    s.Made P Q F (emitEnsureBody frame) := by
  refine .bind (made_plain hP rfl) fun _ => .bind (made_forIn _ fun i hi u => ?_) fun _ => made_pure
  exact .bind (.emit (hframe i hi)) fun _ => made_pure

theorem made_call {result : Variable} {type : CallType} {receiver : Operand} {name : Symbol}
    {args : List Operand} {block : Operand} {flags : CallFlags} :
    s.Made P Q F (call result type receiver name args block flags) :=
  .bind made_ownScope fun _ => .bind (made_plain hP rfl) fun _ => made_pure

theorem made_renameMethod {newName oldName : Operand} :
    s.Made P Q F (renameMethod newName oldName) :=
  .bind (made_plain hP rfl) fun _ => made_pure

theorem made_searchConst {name : Symbol} : s.Made P Q F (searchConst name) :=
  .bind .temp fun _ => .bind (made_plain hP rfl) fun _ => made_pure

theorem made_searchModuleConst {module : Operand} {name : Symbol} :
    s.Made P Q F (searchModuleConst module name) :=
  .bind .temp fun _ => .bind (made_plain hP rfl) fun _ => made_pure

theorem made_raiseError {className : Symbol} {message : Operand} :
    s.Made P Q F (raiseError className message) :=
  .bind (made_searchModuleConst hP) fun _ => .bind (made_searchModuleConst hP) fun _ =>
    .bind .temp fun _ => .bind (made_call hP) fun _ => made_pure

theorem made_breakWith (hs : ∀ frame ∈ s.builder.ensures, ∀ i ∈ frame.instrs, P i)
    (htransfers : s.Transfers P) : s.Made P Q F (breakWith value) := by
  refine .bind made_current fun hcurrent => ?_
  obtain ⟨rfl, rfl⟩ := runs_current.mp hcurrent
  split
  · refine .bind (made_copyEnsures hP hs) fun _ => ?_
    exact .bind (made_plain hP rfl) fun _ => made_plain hP rfl
  · refine .bind made_ownScope fun hscope => ?_
    obtain ⟨hx, rfl⟩ := runs_ownScope.mp hscope
    split
    · next hkind hparent => exact .emit (htransfers.breakOut value hx hkind hparent)
    · split
      · exact made_escaping
      · exact made_invalid

theorem made_next (hs : ∀ frame ∈ s.builder.ensures, ∀ i ∈ frame.instrs, P i) :
    s.Made P Q F (BuildT.next value) := by
  refine .bind made_current fun hcurrent => ?_
  obtain ⟨rfl, rfl⟩ := runs_current.mp hcurrent
  refine .bind (made_copyEnsures hP hs) fun _ => ?_
  split
  · exact made_plain hP rfl
  · refine .bind (made_plain hP rfl) fun _ => .bind made_ownScope fun _ => ?_
    split
    · exact made_plain hP rfl
    · split
      · exact made_escaping
      · exact made_invalid

theorem made_placeClosureStart : s.Made P Q F placeClosureStart :=
  .bind .newClosureStart fun _ => made_plain hP rfl

/-- If the start of the body is not marked, its label comes to stand in front. -/
theorem made_redo (hstart : s.Unmarked → Q (.label s.builder.scope.startLabel)) :
    s.Made P Q F redo := by
  refine .bind made_current fun hcurrent => ?_
  obtain ⟨rfl, rfl⟩ := runs_current.mp hcurrent
  split
  · exact made_plain hP rfl
  next hloop =>
  refine .bind made_ownScope fun hscope => ?_
  obtain ⟨hx, rfl⟩ := runs_ownScope.mp hscope
  split
  · next hkind =>
    refine .bind (made_plain hP rfl) fun hemit => .bind ?_ fun _ => made_plain hP rfl
    have hemits := emits_of_emit hemit
    refine .bind made_current fun hcurrent => ?_
    obtain ⟨rfl, rfl⟩ := runs_current.mp hcurrent
    split
    · exact made_pure
    next hnone =>
    refine .bind .newClosureStart fun hlabel => .bind (.prepend ?_) fun _ => made_pure
    -- what was emitted has not marked the start, and the scope is the same
    have hunmarked : s.builder.closureStart = none := by
      rcases hemits.start with heq | ⟨heq, -⟩
      · rw [← heq, hnone]
      · exact heq
    obtain ⟨rfl, -⟩ := runs_newClosureStart.mp hlabel
    have hq := hstart ⟨List.head?_eq_none_iff.mp hloop, hunmarked, _, hx, hkind⟩
    rw [← hemits.scope] at hq
    exact hq
  · split
    · exact made_escaping
    · exact made_invalid

/-- If there is a rescue to go back to, the scope has a loop. -/
theorem made_retry (hloops : s.builder.rescues ≠ [] → F {.hasLoops}) : s.Made P Q F retry := by
  refine .bind made_current fun hcurrent => ?_
  obtain ⟨rfl, rfl⟩ := runs_current.mp hcurrent
  split
  · exact made_invalid
  · next hrescues =>
    refine .bind (made_plain hP rfl) fun _ => .bind (made_plain hP rfl) fun _ => ?_
    exact .bind (made_plain hP rfl) fun _ =>
      .insertFlags (hloops (hrescues ▸ List.cons_ne_nil _ _))

theorem made_returnWith (hs : ∀ frame ∈ s.builder.ensures, ∀ i ∈ frame.instrs, P i)
    (htransfers : s.Transfers P) : s.Made P Q F (returnWith value) := by
  refine .bind made_ownScope fun hscope => ?_
  obtain ⟨hx, rfl⟩ := runs_ownScope.mp hscope
  refine .bind made_get fun hget => .bind made_except fun hmethod => ?_
  obtain ⟨rfl, rfl⟩ := runs_get.mp hget
  obtain ⟨-, rfl⟩ := runs_liftM_except.mp hmethod
  dsimp only
  split
  · next hkind =>
    exact .bind (made_plain hP rfl) fun _ => .emit (htransfers.nonlocalReturn value _ hx (.inl hkind))
  split
  · next hkind =>
    split
    · exact .emit (htransfers.nonlocalReturn value _ hx (.inr hkind))
    · exact .bind (made_raiseError hP) fun _ => made_pure
  refine .bind made_current fun hcurrent => ?_
  obtain ⟨rfl, rfl⟩ := runs_current.mp hcurrent
  split
  · exact made_plain hP rfl
  · refine .bind .temp fun htemp => .bind (made_plain hP rfl) fun hcopy => ?_
    -- the same ensures are open when they are copied
    have hopen := (takesTemp_of_temp htemp).sameStacks.trans (emits_of_emit hcopy).sameStacks
    refine .bind (made_copyEnsures hP ?_) fun _ => made_plain hP rfl
    rwa [hopen.ensures]

theorem made_classVarContainer {declares : Bool} : s.Made P Q F (classVarContainer declares) := by
  refine .bind made_get fun _ => .bind made_current fun _ => .bind made_except fun _ => ?_
  split
  · exact made_pure
  · exact .bind .temp fun _ => .bind (made_plain hP rfl) fun _ => made_pure

theorem made_getClassVar {name : Symbol} : s.Made P Q F (getClassVar name) := by
  refine .bind made_isTopScope fun _ => ?_
  split
  · exact made_raiseError hP
  · refine .bind (made_classVarContainer hP) fun _ => .bind .temp fun _ => ?_
    exact .bind (made_plain hP rfl) fun _ => made_pure

theorem made_putClassVar {declares : Bool} {name : Symbol} :
    s.Made P Q F (putClassVar declares name value) := by
  refine .bind made_isTopScope fun _ => ?_
  split
  · exact made_raiseError hP
  · refine .bind (made_classVarContainer hP) fun _ => ?_
    exact .bind (made_plain hP rfl) fun _ => made_pure

theorem made_ifElse {yes no : SessionM Unit} (hyes : ∀ {u : Session}, u.Made P Q F yes)
    (hno : ∀ {u : Session}, u.Made P Q F no) : s.Made P Q F (BuildT.ifElse value test yes no) := by
  refine .bind .newLabelNamed fun _ => .bind .newLabelNamed fun _ => ?_
  refine .bind (made_condNe hP) fun _ => .bind hyes fun _ => ?_
  refine .bind (made_plain hP rfl) fun _ => .bind (made_plain hP rfl) fun _ => ?_
  exact .bind hno fun _ => made_plain hP rfl

theorem made_forwardAll {args : ForwardedArgs} {forward : List Operand → CallFlags → ZSuper} :
    s.Made P Q F (BuildT.zsuper.forwardAll args fun os flags => .zsuper (forward os flags)) :=
  .bind made_except fun _ => made_plain hP rfl

/-- A super call that is refused counts as one. -/
theorem made_zsuper {block : Operand} (hsuper : (Act.zsuper block).refuses s → F {.usesZSuper}) :
    s.Made P Q F (BuildT.zsuper block) := by
  refine .bind made_forwardedArgs fun {args? _} hargs => .bind .temp fun _ => ?_
  cases args? with
  | none =>
    have hrefuses : (Act.zsuper block).refuses s := by
      rw [Act.refuses, show forwardedArgs? s = _ from hargs]
    refine .bind (.insertFlags (hsuper hrefuses)) fun _ => ?_
    exact .bind (made_raiseError hP) fun _ => made_pure
  | some args =>
    refine .bind made_ownScope fun _ => .bind (.record rfl) fun _ => ?_
    dsimp only
    split
    · split
      · refine .bind made_except fun _ => .bind made_except fun _ => .bind .temp fun _ => ?_
        refine .bind (made_plain hP rfl) fun _ => .bind (made_ifElse hP ?_ ?_) fun _ => made_pure
        · exact made_plain hP rfl
        · exact made_plain hP rfl
      · exact .bind (made_forwardAll hP) fun _ => made_pure
    · exact .bind (made_forwardAll hP) fun _ => made_pure

end Lenient

end Session

namespace Act

open Session

/-- The instructions that the operation is given to be emitted, now or later. -/
def given : Act → List Instr
  | emit i | emitAtBeginning i | emitResult i => [i]
  | pushEnsure frame | enterEnsureBody frame | copyEnsure frame | emitEnsureBody frame =>
    frame.instrs
  | _ => []

/-- The operation makes the scope one with a loop. -/
def addsLoop (s : Session) : Act → Bool
  | pushLoop => true
  | retry => !s.builder.rescues.isEmpty
  | _ => false

/-- The operation marks where the body of the scope starts. -/
def marksStart (s : Session) : Act → Bool
  | redo => s.Unmarked
  | _ => false

/-- Changes the builder by itself: it opens or closes something, sets something, or puts an
instruction in front. -/
def isDirect : Act → Bool
  | note _ | emitAtBeginning _ | setCoverage _ | setMethodName _ | setEvalType _ | pushRescue _
  | popRescue | pushRescuer _ | popRescuer | pushLoop | popLoop | pushEnsure _ | popEnsure
  | enterEnsureBody _ | exitEnsureBody => true
  | _ => false

variable {P Q : Instr → Prop} {F : ScopeFlags → Prop} {s : Session} {a : Act}

/-- What the operation may emit from here on is as `P` says, what it may put in front as `Q` says, and
the flags that it may set as `F` says. -/
structure Within (P Q : Instr → Prop) (F : ScopeFlags → Prop) (s : Session) (a : Act) : Prop extends
    s.Transfers P where
  given : ∀ i ∈ a.given, P i
  ensures : ∀ frame ∈ s.builder.ensures, ∀ i ∈ frame.instrs, P i
  start : a.marksStart s → Q (.label s.builder.scope.startLabel)
  loops : a.addsLoop s → F {.hasLoops}
  supers : a.refuses s → F {.usesZSuper}

/-- Every operation that does not change the builder by itself is made of basic actions. -/
theorem made (hP : Lenient P) (h : a.Within P Q F s) (ha : a.isDirect = false) :
    s.Made P Q F a.run := by
  have hunit {α : Type} {x : SessionM α} (hx : s.Made P Q F x) : s.Made P Q F (do let _ ← x) :=
    .bind hx fun _ => made_pure
  cases a with
  | emit i => exact .emit (h.given i (List.mem_singleton_self i))
  | emitResult i => exact hunit (made_emitResult (h.given i (List.mem_singleton_self i)))
  | temp => exact hunit .temp
  | newLabel => exact hunit .newLabelNamed
  | currentModuleVar => exact hunit .currentModuleVar
  | yieldClosureVar => exact hunit .yieldClosureVar
  | cond => exact made_cond hP
  | condNe => exact made_condNe hP
  | newEnsure => exact hunit made_newEnsure
  | copyEnsure => exact made_copyEnsure hP h.given
  | copyEnsures => exact made_copyEnsures hP h.ensures
  | emitEnsureBody => exact made_emitEnsureBody hP h.given
  | «break» => exact made_breakWith hP h.ensures h.toTransfers
  | next => exact made_next hP h.ensures
  | redo => exact made_redo hP fun hs => h.start (decide_eq_true hs)
  | retry => exact made_retry hP fun hs => h.loops (by simpa [addsLoop] using hs)
  | «return» => exact made_returnWith hP h.ensures h.toTransfers
  | renameMethod => exact hunit (made_renameMethod hP)
  | searchConst => exact hunit (made_searchConst hP)
  | searchModuleConst => exact hunit (made_searchModuleConst hP)
  | call => exact hunit (made_call hP)
  | raiseError => exact hunit (made_raiseError hP)
  | classVarContainer => exact hunit (made_classVarContainer hP)
  | getClassVar => exact hunit (made_getClassVar hP)
  | putClassVar => exact hunit (made_putClassVar hP)
  | zsuper => exact hunit (made_zsuper hP h.supers)
  | placeClosureStart => exact made_placeClosureStart hP
  | _ => cases ha

/-- Operations may emit and set whatever they like. -/
theorem within_true : a.Within (fun _ => True) (fun _ => True) (fun _ => True) s where
  breakOut _ _ _ _ := trivial
  nonlocalReturn _ _ _ _ := trivial
  given _ _ := trivial
  ensures _ _ _ _ := trivial
  start _ := trivial
  loops _ := trivial
  supers _ := trivial

end Act

end ScopeIR
