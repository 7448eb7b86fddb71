import ScopeIR.Proofs.VeiledLines

/-! All operations of builders under a veil. What they ask, build and answer is the same in both
runs but for the names of temporaries. -/

namespace ScopeIR

/-- Receives something in a temporary that does not say where it comes from. -/
def Instr.receivesPlain : Instr → Bool
  | .receive (.temp (.plain _)) _ => true
  | _ => false

namespace Session

/-- What a super call forwards here is in temporaries of the same counter, or in none that have to
be. -/
def Shares (counter : ScopeId → ScopeId) (s : Session) : Prop :=
  ∀ chain x, s.registry.lexicalChain s.builder.scope = .ok chain →
    let depth := (chain.takeWhile (·.kind.isClosureLike)).length
    chain[depth]? = some x →
      let source := match (s.builder :: s.outer)[depth]? with
        | some b => (b.scope, b.instrs.toList)
        | none => (x.id, x.instrs.getD [])
      counter source.1 = counter s.builder.scope ∨ ∀ i ∈ source.2, i.receivesPlain = false

end Session

namespace Veil

open Session

variable {α β : Type} {V : Veil} {c : ScopeId} {g g' : Registry} {s s' t t' u : Session} {i : Instr}
  {value test : Operand} {frame : EnsureFrame}

section Branches

theorem hides_cond {target : Label} : V.Hides c s s' (cond target value test)
    (cond target (value.mapVars (V.var c)) (test.mapVars (V.var c))) fun v => v := by
  unfold Session.cond branchIf
  rw [Instr.branchIf?_mapVars]
  cases hbranch : Instr.branchIf? value test target with
  | none => exact hides_bind (φ := fun i => i) (hides_throw rfl) fun h => nomatch h
  | some i =>
    refine hides_bind (φ := (·.mapVars (V.var c))) (hides_pure rfl) fun hr => hides_emit ?_
    obtain ⟨rfl, -⟩ := runs_pure.mp hr
    rcases branchIf?_cases hbranch with rfl | rfl | ⟨op, rfl⟩ <;> trivial

theorem hides_condNe {target : Label} : V.Hides c s s' (condNe target value test)
    (condNe target (value.mapVars (V.var c)) (test.mapVars (V.var c))) fun v => v := by
  unfold condNe
  rw [Instr.branchUnlessEqual_mapVars]
  refine hides_emit ?_
  unfold Instr.branchUnlessEqual
  split <;> trivial

theorem hides_jump {target : Label} : V.Hides c s s' (jump target) (jump target) fun v => v :=
  hides_emit (i := .jump target) trivial

end Branches

section Copies

theorem hides_forIn {f : α → SessionM (ForInStep PUnit)} {f' : β → SessionM (ForInStep PUnit)}
    {e : α → β} (xs : List α)
    (hf : ∀ a ∈ xs, ∀ {u u' : Session}, V.Hides c u u' (f a) (f' (e a)) fun v => v) {v : PUnit} :
    V.Hides c s s' (forIn xs v fun a _ => f a) (forIn (xs.map e) v fun b _ => f' b)
      fun v => v := by
  induction xs generalizing s s' v with
  | nil => exact hides_pure rfl
  | cons a xs ih =>
    rw [List.map_cons, List.forIn_cons, List.forIn_cons]
    refine hides_bind (hf a List.mem_cons_self) fun {step _ _} _ => ?_
    cases step with
    | done => exact hides_pure rfl
    | yield => exact ih fun b hb => hf b (List.mem_cons_of_mem _ hb)

theorem hides_freshen {σ : Renaming} : V.Hides c s s' (freshen σ i)
    (freshen (σ.mapVars (V.var c)) (i.mapVars (V.var c))) (·.mapVars (V.var c)) := by
  have hlabel : V.Hides c s s' (freshenLabel σ i)
      (freshenLabel (σ.mapVars (V.var c)) (i.mapVars (V.var c))) (·.mapVars (V.var c)) := by
    cases i with
    | label l => exact hides_bind hides_newLabelNamed fun _ => hides_pure rfl
    | _ => exact hides_pure rfl
  rw [freshen_eq, freshen_eq]
  refine hides_bind hlabel fun {σ _ _} _ => ?_
  have hrenames := V.renumbering.renames_var c
  unfold freshenResult
  rw [Instr.result?_mapVars]
  cases i.result? with
  | none => exact hides_pure rfl
  | some v =>
    simp only [Option.map_some, hrenames.isTemp, σ.hasVar_mapVars hrenames.injective]
    split
    · exact hides_bind hides_temp fun _ => hides_pure rfl
    · exact hides_pure rfl

theorem hides_foldlM_freshen {xs : List Instr} {σ : Renaming} : V.Hides c s s' (xs.foldlM freshen σ)
    ((xs.map (·.mapVars (V.var c))).foldlM freshen (σ.mapVars (V.var c)))
      (·.mapVars (V.var c)) := by
  induction xs generalizing s s' σ with
  | nil => exact hides_pure rfl
  | cons i xs ih => exact hides_bind hides_freshen fun _ => ih

theorem fine_rename {σ : Renaming} (hi : i.Fine V.given) : (i.rename σ).Fine V.given := by
  cases i <;> exact hi

theorem hides_copyEnsure (hframe : ∀ i ∈ frame.instrs, i.Fine V.given) :
    V.Hides c s s' (copyEnsure frame) (copyEnsure (frame.mapVars (V.var c))) fun v => v := by
  unfold copyEnsure
  have hempty : (frame.mapVars (V.var c)).instrs.isEmpty = frame.instrs.isEmpty := List.isEmpty_map
  by_cases h : frame.instrs.isEmpty
  · rw [if_pos h, if_pos (hempty.trans h)]
    exact hides_pure rfl
  rw [if_neg h, if_neg (hempty ▸ h)]
  refine hides_bind hides_newLabelNamed fun _ => ?_
  refine hides_bind (hides_foldlM_freshen (σ := .insertLabel ∅ _ _)) fun {σ _ _} _ => ?_
  refine hides_current_bind (hides_bind (hides_record rfl) fun _ => ?_)
  refine hides_bind (hides_emit (i := .label _) trivial) fun _ => ?_
  refine hides_bind (hides_emit (i := .regionStart _) trivial) fun _ => ?_
  refine hides_bind (hides_forIn frame.instrs fun i hi u u' => ?_) fun _ =>
    hides_emit (i := .regionEnd) trivial
  dsimp only
  rw [Instr.rename_mapVars (V.renumbering.renames_var c).injective, Instr.closure?_mapVars]
  split
  · refine hides_bind hides_addClosure fun _ => ?_
    exact hides_bind (hides_emit (fine_rename (hframe i hi))) fun _ => hides_pure rfl
  · exact hides_bind (hides_emit (fine_rename (hframe i hi))) fun _ => hides_pure rfl

theorem passedEnsures_mapVars {f : Variable → Variable} {loop : Option LoopId}
    {frames : List EnsureFrame} :
    passedEnsures loop (frames.map (·.mapVars f)) =
      (passedEnsures loop frames).map (·.mapVars f) := by
  cases loop with
  | none => rfl
  | some id =>
    rw [passedEnsures, passedEnsures, List.takeWhile_map]
    rfl

theorem hides_copyEnsures {loop : Option LoopId} :
    V.Hides c s s' (copyEnsures loop) (copyEnsures loop) fun v => v := by
  unfold copyEnsures
  refine hides_of_neat fun hs => hides_current_bind ?_
  dsimp only [Builder.untraced]
  rw [passedEnsures_mapVars]
  refine hides_bind (hides_forIn _ fun frame hframe u u' => ?_) fun _ => hides_pure rfl
  have hmem := List.mem_append_left s.builder.ensureBodies (mem_of_mem_passedEnsures hframe)
  exact hides_bind (hides_copyEnsure (hs.holds frame hmem)) fun _ => hides_pure rfl

theorem hides_emitEnsureBody (hframe : ∀ i ∈ frame.instrs, i.Fine V.given) :
    V.Hides c s s' (emitEnsureBody frame) (emitEnsureBody (frame.mapVars (V.var c)))
      fun v => v := by
  unfold emitEnsureBody
  refine hides_bind (hides_emit (i := .label _) trivial) fun _ => ?_
  refine hides_bind (hides_forIn frame.instrs fun i hi u u' => ?_) fun _ => hides_pure rfl
  exact hides_bind (hides_emit (hframe i hi)) fun _ => hides_pure rfl

theorem currentLoop_untraced {f : Variable → Variable} (b : Builder) :
    (b.untraced f).currentLoop = b.currentLoop.map (·.mapVars f) := List.head?_map

theorem hides_newEnsure :
    V.Hides c s s' newEnsure newEnsure (·.mapVars (V.var c)) := by
  unfold newEnsure
  refine hides_bind hides_newLabelNamed fun _ => hides_bind hides_newLabelNamed fun _ => ?_
  refine hides_bind hides_newLabelNamed fun _ => hides_bind hides_newLabelNamed fun _ => ?_
  refine hides_current_bind (hides_pure ?_)
  rw [currentLoop_untraced, Option.map_map]
  rfl

end Copies

section Exits

theorem hides_refused {e : Location → BuildError} {φ : α → β}
    (he : ∀ l, (e l).mapVars (V.var c) = e l) :
    V.Hides c s s' (do throw (.error (e (← place)))) (do throw (.error (e (← place)))) φ :=
  hides_bind hides_place fun {l _ _} _ => hides_throw (congrArg Fault.error (he l))

theorem hides_breakWith : V.Hides c s s' (breakWith value) (breakWith (value.mapVars (V.var c)))
    fun v => v := by
  unfold breakWith
  refine hides_current_bind ?_
  rw [currentLoop_untraced]
  cases s.builder.currentLoop with
  | some loop =>
    refine hides_bind hides_copyEnsures fun _ => ?_
    exact hides_bind (hides_emit (i := .copy _ _) trivial) fun _ => hides_jump
  | none =>
    refine hides_bind hides_ownScope fun {x _ _} _ => ?_
    dsimp only [Option.map_none, Veil.scope]
    cases x.kind.isClosure <;> cases x.parent
    case true.some => exact hides_emit (i := .breakOut _ _) trivial
    all_goals
      dsimp only
      split <;> exact hides_refused fun _ => rfl

theorem hides_next : V.Hides c s s' (BuildT.next value) (BuildT.next (value.mapVars (V.var c)))
    fun v => v := by
  unfold BuildT.next
  refine hides_current_bind ?_
  rw [currentLoop_untraced]
  cases s.builder.currentLoop with
  | some loop => exact hides_bind hides_copyEnsures fun _ => hides_jump
  | none =>
    refine hides_bind hides_copyEnsures fun _ => ?_
    refine hides_bind (hides_emit (i := .threadPoll) trivial) fun _ => ?_
    refine hides_bind hides_ownScope fun {x _ _} _ => ?_
    dsimp only [Veil.scope]
    split
    · exact hides_emit (i := .ret _) trivial
    · split <;> exact hides_refused fun _ => rfl

theorem hides_newClosureStart :
    V.Hides c s s' newClosureStart newClosureStart fun l => l := by
  unfold newClosureStart
  refine hides_current_bind ?_
  exact hides_bind (hides_updateBuilder rfl rfl rfl .inl rfl id rfl) fun _ => hides_pure rfl

theorem hides_closureStart : V.Hides c s s' closureStart closureStart fun l => l := by
  unfold closureStart
  refine hides_current_bind ?_
  dsimp only [Builder.untraced]
  cases s.builder.closureStart with
  | some l => exact hides_pure rfl
  | none =>
    refine hides_bind hides_newClosureStart fun _ => ?_
    exact hides_bind (hides_prepend (i := .label _) trivial) fun _ => hides_pure rfl

theorem hides_redo : V.Hides c s s' redo redo fun v => v := by
  unfold redo
  refine hides_current_bind ?_
  rw [currentLoop_untraced]
  cases s.builder.currentLoop with
  | some loop => exact hides_jump
  | none =>
    refine hides_bind hides_ownScope fun {x _ _} _ => ?_
    dsimp only [Veil.scope]
    split
    · refine hides_bind (hides_emit (i := .threadPoll) trivial) fun _ => ?_
      exact hides_bind hides_closureStart fun _ => hides_jump
    · split <;> exact hides_refused fun _ => rfl

theorem hides_retry : V.Hides c s s' retry retry fun v => v := by
  unfold retry
  refine hides_current_bind ?_
  dsimp only [Builder.untraced]
  cases s.builder.rescues with
  | nil => exact hides_refused fun _ => rfl
  | cons frame frames =>
    refine hides_bind (hides_emit (i := .threadPoll) trivial) fun _ => ?_
    refine hides_bind (hides_emit (i := .putGlobal _ _) trivial) fun _ => ?_
    exact hides_bind hides_jump fun _ => hides_insertFlags

theorem hides_call {result : Variable} {type : CallType} {receiver : Operand} {name : Symbol}
    {args : List Operand} {block : Operand} {flags : CallFlags} :
    V.Hides c s s' (call result type receiver name args block flags)
      (call (V.var c result) type (receiver.mapVars (V.var c)) name
        (args.map (·.mapVars (V.var c))) (block.mapVars (V.var c)) flags) (V.var c) := by
  unfold call
  refine hides_bind hides_ownScope fun _ => ?_
  exact hides_bind (hides_emit (i := .call _) trivial) fun _ => hides_pure rfl

theorem hides_searchModuleConst {module : Operand} {name : Symbol} :
    V.Hides c s s' (searchModuleConst module name)
      (searchModuleConst (module.mapVars (V.var c)) name) (·.mapVars (V.var c)) := by
  unfold searchModuleConst
  refine hides_bind hides_temp fun _ => ?_
  exact hides_bind (hides_emit (i := .searchModuleConst _ _ _ _) trivial) fun _ => hides_pure rfl

theorem hides_raiseError {className : Symbol} {message : Operand} :
    V.Hides c s s' (raiseError className message)
      (raiseError className (message.mapVars (V.var c))) (·.mapVars (V.var c)) := by
  unfold raiseError plainCall
  refine hides_bind hides_searchModuleConst fun _ => ?_
  refine hides_bind hides_searchModuleConst fun _ => hides_bind hides_temp fun _ => ?_
  exact hides_bind hides_call fun _ => hides_pure rfl

end Exits

section Chains

variable {id : ScopeId}

/-- Chains differ in what the scopes hold. -/
theorem Covers.lexicalChain (h : V.Covers g g') :
    g'.lexicalChain id = (g.lexicalChain id).map (List.map V.scope) := by
  -- on the index, since a chain goes on only to a parent with a smaller one
  induction hn : id.index.toNat using Nat.strong_induction_on generalizing id with
  | _ n ih =>
    cases hx : g.scope? id with
    | none =>
      have hx' : g'.scope? id = none := by rw [h.scope, hx, Option.map_none]
      unfold Registry.scope? at hx hx'
      rw [Registry.lexicalChain, Registry.lexicalChain, Registry.scope, Registry.scope, hx, hx']
      rfl
    | some x =>
      have hx' : g'.scope? id = some (V.scope x) := by rw [h.scope, hx, Option.map_some]
      rw [Registry.lexicalChain_eq hx, Registry.lexicalChain_eq hx']
      have hparent : (V.scope x).parent = x.parent := rfl
      rw [hparent]
      cases x.parent with
      | none => rfl
      | some p =>
        dsimp only
        split
        · next hlt =>
          rw [ih p.index.toNat (hn ▸ hlt) rfl]
          cases g.lexicalChain p <;> rfl
        · rfl

theorem Covers.finds_lexicalChain (h : V.Covers g g') :
    V.Finds c (List.map V.scope) (g.lexicalChain id) (g'.lexicalChain id) := by
  rw [h.lexicalChain]
  cases hchain : g.lexicalChain id with
  | ok chain => exact .inl ⟨chain, rfl, rfl⟩
  | error e =>
    obtain ⟨_, rfl⟩ := Registry.noScope_of_lexicalChain hchain
    exact .inr ⟨_, rfl, rfl⟩

theorem Finds.map {γ δ : Type} {φ : α → β} {ψ : γ → δ} {x : Except Fault α} {x' : Except Fault β}
    {f : α → γ} {f' : β → δ} (h : V.Finds c φ x x') (hf : ∀ a, f' (φ a) = ψ (f a)) :
    V.Finds c ψ (do return f (← x)) (do return f' (← x')) := by
  rcases h with ⟨a, rfl, rfl⟩ | ⟨e, rfl, rfl⟩
  · exact .inl ⟨f a, rfl, congrArg Except.ok (hf a)⟩
  · exact .inr ⟨e, rfl, rfl⟩

/-- What is found in a chain by what scopes are. -/
theorem find?_scope {p : Scope → Bool} (hp : ∀ x, p (V.scope x) = p x) (chain : List Scope) :
    (chain.map V.scope).find? p = (chain.find? p).map V.scope := by
  rw [List.find?_map]
  exact congrArg (Option.map V.scope) (congrArg (chain.find? ·) (funext hp))

theorem Covers.finds_nearestMethod (h : V.Covers g g') :
    V.Finds c (Option.map V.scope) (g.nearestMethod id) (g'.nearestMethod id) :=
  h.finds_lexicalChain.map fun chain => find?_scope (fun _ => rfl) chain

theorem Covers.finds_nearestFrame (h : V.Covers g g') :
    V.Finds c (fun id => id) (g.nearestFrame id) (g'.nearestFrame id) := by
  refine h.finds_lexicalChain.map fun chain => ?_
  rw [find?_scope fun _ => rfl]
  cases chain.find? (!·.kind.isClosureLike) <;> rfl

theorem hides_returnWith : V.Hides c s s' (returnWith value)
    (returnWith (value.mapVars (V.var c))) fun v => v := by
  unfold returnWith
  refine hides_bind hides_ownScope fun {x _ _} _ => hides_get_bind ?_
  refine hides_finds_bind (fun hss' => hss'.registry.finds_nearestMethod) fun method => ?_
  have hname : (method.map V.scope).map (·.name) = method.map (·.name) := by
    cases method <;> rfl
  simp only [hname, Veil.scope]
  split
  · refine hides_bind (hides_emit (i := .checkLocalJump _) trivial) fun _ => ?_
    exact hides_emit (i := .nonlocalReturn _ _) trivial
  split
  · cases method with
    | some m => exact hides_emit (i := .nonlocalReturn _ _) trivial
    | none => exact hides_bind hides_raiseError fun _ => hides_pure rfl
  refine hides_current_bind ?_
  dsimp only [Builder.untraced]
  rw [List.isEmpty_map]
  split
  · exact hides_emit (i := .ret _) trivial
  · refine hides_bind hides_temp fun _ => ?_
    refine hides_bind (hides_emit (i := .copy _ _) trivial) fun _ => ?_
    exact hides_bind hides_copyEnsures fun _ => hides_emit (i := .ret _) trivial

end Chains

section Modules

theorem classVarDepth?_scope (chain : List Scope) :
    classVarDepth? (chain.map V.scope) = classVarDepth? chain := by
  induction chain with
  | nil => rfl
  | cons x rest ih =>
    rw [List.map_cons, classVarDepth?, classVarDepth?, ih]
    rfl

theorem hides_classVarContainer {declares : Bool} : V.Hides c s s' (classVarContainer declares)
    (classVarContainer declares) (·.mapVars (V.var c)) := by
  unfold classVarContainer
  refine hides_get_bind (hides_current_bind ?_)
  refine hides_finds_bind (fun hss' => hss'.registry.finds_lexicalChain) fun chain => ?_
  rw [classVarDepth?_scope]
  cases classVarDepth? chain with
  | some depth => exact hides_pure rfl
  | none =>
    refine hides_bind hides_temp fun _ => ?_
    cases declares <;>
      exact hides_bind (hides_emit (i := .classVarModule _ _ _) trivial) fun _ => hides_pure rfl

theorem hides_isTopScope : V.Hides c s s' isTopScope isTopScope fun b => b := by
  unfold isTopScope
  refine hides_get_bind (hides_current_bind ?_)
  refine hides_finds_bind (fun hss' => hss'.registry.finds_nearestFrame) fun frame => ?_
  refine hides_finds_bind (fun hss' => hss'.registry.finds_lexicalChain) fun chain => ?_
  refine hides_finds_bind (fun hss' => hss'.registry.finds_scope) fun x => hides_pure ?_
  rw [List.any_map]
  rfl

theorem hides_getClassVar {name : Symbol} : V.Hides c s s' (getClassVar name)
    (getClassVar name) (·.mapVars (V.var c)) := by
  unfold getClassVar
  refine hides_bind hides_isTopScope fun {top _ _} _ => ?_
  cases top with
  | true => exact hides_raiseError
  | false =>
    refine hides_bind hides_classVarContainer fun _ => hides_bind hides_temp fun _ => ?_
    exact hides_bind (hides_emit (i := .getClassVar _ _ _) trivial) fun _ => hides_pure rfl

theorem hides_putClassVar {declares : Bool} {name : Symbol} :
    V.Hides c s s' (putClassVar declares name value)
      (putClassVar declares name (value.mapVars (V.var c))) (·.mapVars (V.var c)) := by
  unfold putClassVar
  refine hides_bind hides_isTopScope fun {top _ _} _ => ?_
  cases top with
  | true => exact hides_raiseError
  | false =>
    refine hides_bind hides_classVarContainer fun _ => ?_
    exact hides_bind (hides_emit (i := .putClassVar _ _ _) trivial) fun _ => hides_pure rfl

end Modules

section Supers

theorem mapM_deepen {f : Variable → Variable} (hf : Variable.Renames f) {n : UInt64}
    {os : List Operand} : (os.map (·.mapVars f)).mapM (Operand.deepen n) =
      (os.mapM (Operand.deepen n)).map (List.map (·.mapVars f)) := by
  induction os with
  | nil => rfl
  | cons o os ih =>
    rw [List.map_cons, List.mapM_cons, List.mapM_cons, ih, Operand.deepen_mapVars hf]
    cases o.deepen n with
    | none => rfl
    | some o' => cases os.mapM (Operand.deepen n) <;> rfl

theorem hides_deepened {depth : Nat} (os : List Operand) : V.Hides c s s' (deepened depth os)
    (deepened depth (os.map (·.mapVars (V.var c)))) (List.map (·.mapVars (V.var c))) := by
  refine hides_finds fun _ => ?_
  rw [mapM_deepen (V.renumbering.renames_var c)]
  cases os.mapM (Operand.deepen depth.toUInt64) with
  | none => exact .inr ⟨_, rfl, rfl⟩
  | some os' => exact .inl ⟨os', rfl, rfl⟩

theorem hides_ifElse {yes no yes' no' : SessionM Unit}
    (hyes : ∀ {u u' : Session}, V.Hides c u u' yes yes' fun v => v)
    (hno : ∀ {u u' : Session}, V.Hides c u u' no no' fun v => v) :
    V.Hides c s s' (BuildT.ifElse value test yes no)
      (BuildT.ifElse (value.mapVars (V.var c)) (test.mapVars (V.var c)) yes' no') fun v => v := by
  unfold BuildT.ifElse
  refine hides_bind hides_newLabelNamed fun _ => hides_bind hides_newLabelNamed fun _ => ?_
  refine hides_bind hides_condNe fun _ => hides_bind hyes fun _ => ?_
  refine hides_bind hides_jump fun _ => hides_bind (hides_emit (i := .label _) trivial) fun _ => ?_
  exact hides_bind hno fun _ => hides_emit (i := .label _) trivial

theorem hides_forwardAll {args : ForwardedArgs}
    {forward forward' : List Operand → CallFlags → Instr}
    (hfine : ∀ os flags, (forward os flags).Fine V.given)
    (hforward : ∀ os flags, forward' (os.map (·.mapVars (V.var c))) flags =
      (forward os flags).mapVars (V.var c)) :
    V.Hides c s s' (BuildT.zsuper.forwardAll args forward)
      (BuildT.zsuper.forwardAll (args.mapVars (V.var c)) forward') fun v => v := by
  unfold BuildT.zsuper.forwardAll
  have hall : (if args.receivesKeywords then
        (args.mapVars (V.var c)).positional ++ [.hash (args.mapVars (V.var c)).keywords]
      else (args.mapVars (V.var c)).positional) =
      (if args.receivesKeywords then args.positional ++ [.hash args.keywords]
        else args.positional).map (·.mapVars (V.var c)) := by
    split
    · rw [List.map_append, List.map_singleton, Operand.mapVars, Operand.mapPairs_eq]
      rfl
    · rfl
  have hsame : (args.mapVars (V.var c)).receivesKeywords = args.receivesKeywords := rfl
  dsimp only
  rw [hsame, hall]
  refine hides_bind (hides_deepened _) fun {os _ _} _ => ?_
  rw [hforward]
  exact hides_emit (hfine _ _)

theorem ofInstrs_congr {f f' : Variable → Variable} {list : List Instr} {depth : Nat}
    {receives : Bool} (h : ∀ i ∈ list, ∀ r p, i = .receive r p → f r = f' r) :
    (ForwardedArgs.ofInstrs list depth receives).mapVars f =
      (ForwardedArgs.ofInstrs list depth receives).mapVars f' := by
  have hpositional : ∀ o ∈ list.filterMap Instr.positional?, o.mapVars f = o.mapVars f' := by
    intro o ho
    obtain ⟨i, hi, ho⟩ := List.mem_filterMap.mp ho
    cases i with
    | receive r p =>
      have hr := h _ hi r p rfl
      cases p <;> cases ho
      all_goals simp only [Operand.mapVars, hr]
    | _ => cases ho
  have hkeywords : ∀ k ∈
      (list.filterMap Instr.keywordRest?).reverse ++ list.filterMap Instr.keyword?,
      k.map (·.mapVars f) (·.mapVars f) = k.map (·.mapVars f') (·.mapVars f') := by
    intro k hk
    have hk : k ∈ list.filterMap Instr.keywordRest? ∨ k ∈ list.filterMap Instr.keyword? := by
      rwa [List.mem_append, List.mem_reverse] at hk
    rcases hk with hk | hk
    all_goals
      obtain ⟨i, hi, hk⟩ := List.mem_filterMap.mp hk
      cases i with
      | receive r p =>
        have hr := h _ hi r p rfl
        cases p <;> cases hk
        simp only [Prod.map_apply, Operand.mapVars, hr]
      | _ => cases hk
  simp only [ForwardedArgs.ofInstrs, ForwardedArgs.mapVars]
  rw [List.map_congr_left hpositional, List.map_congr_left hkeywords]

theorem var_eq {d : ScopeId} {r : Variable} {p : Parameter}
    (h : (Instr.receive r p).receivesPlain = false) : V.var d r = V.var c r := by
  cases r with
  | temp t =>
    cases t with
    | plain => cases h
    | _ => rfl
  | _ => rfl

theorem Untraces.builders (h : V.Untraces c s s') : s'.builder :: s'.outer =
    (s.builder :: s.outer).map fun b => b.untraced (V.var (V.counter b.scope)) := by
  rw [h.builder, h.outer, List.map_cons, h.counter]

theorem forwarded?_of_untraces {chain : List Scope} (hss' : V.Untraces c s s')
    (hchain : s.registry.lexicalChain s.builder.scope = .ok chain) (hshares : s.Shares V.counter) :
    s'.forwarded? (chain.map V.scope) =
      (s.forwarded? chain).map (·.mapVars (V.var c)) := by
  have hdepth : (chain.map V.scope).takeWhile (·.kind.isClosureLike) =
      (chain.takeWhile (·.kind.isClosureLike)).map V.scope := by
    rw [List.takeWhile_map]
    rfl
  have hdefined : ∀ n, ((s'.builder :: s'.outer).take n).any (·.buildsDefinedMethod) =
      ((s.builder :: s.outer).take n).any (·.buildsDefinedMethod) := by
    intro n
    rw [hss'.builders, ← List.map_take, List.any_map]
    rfl
  -- which of the two names the source's temporaries get does not matter
  have hargs : ∀ {id : ScopeId} {list : List Instr} {depth : Nat} {receives : Bool},
      (V.counter id = V.counter s.builder.scope ∨ ∀ i ∈ list, i.receivesPlain = false) →
      ForwardedArgs.ofInstrs (untraced (V.var (V.counter id)) list) depth receives =
        (ForwardedArgs.ofInstrs list depth receives).mapVars (V.var c) := by
    intro id list depth receives h
    rw [ofInstrs_untraced]
    rcases h with h | h
    · rw [h, hss'.counter]
    · refine ofInstrs_congr fun i hi r p hr => var_eq (p := p) ?_
      rw [← hr]
      exact h i hi
  have hx := hshares chain
  simp only [forwarded?, hdepth, List.length_map, hdefined]
  by_cases hany : ((s.builder :: s.outer).take
      (chain.takeWhile (·.kind.isClosureLike)).length).any (·.buildsDefinedMethod)
  · rw [if_pos hany, if_pos hany]
    rfl
  rw [if_neg hany, if_neg hany, hss'.builders, List.getElem?_map, List.getElem?_map]
  cases hmethod : chain[(chain.takeWhile (·.kind.isClosureLike)).length]? with
  | none => rfl
  | some x =>
    have hx := hx x hchain hmethod
    dsimp only [Option.map_some]
    by_cases hkind : x.kind = .method
    · have hkind' : (V.scope x).kind = .method := hkind
      rw [if_neg (not_not.mpr hkind'), if_neg (not_not.mpr hkind)]
      cases hb : (s.builder :: s.outer)[(chain.takeWhile (·.kind.isClosureLike)).length]? with
      | some b =>
        rw [hb] at hx
        exact congrArg some (hargs hx)
      | none =>
        rw [hb] at hx
        have hlist : (V.scope x).instrs.getD [] =
            untraced (V.var (V.counter x.id)) (x.instrs.getD []) := by
          cases hi : x.instrs <;> simp only [Veil.scope, hi] <;> rfl
        refine congrArg some ?_
        rw [hlist]
        exact hargs hx
    · have hkind' : (V.scope x).kind ≠ .method := hkind
      rw [if_pos hkind', if_pos hkind]
      rfl

theorem hides_forwardedArgs (hshares : s.Shares V.counter) :
    V.Hides c s s' forwardedArgs? forwardedArgs? (Option.map (·.mapVars (V.var c))) := by
  rw [forwardedArgs?_eq]
  refine hides_get_bind (hides_finds fun hss' => ?_)
  rw [hss'.registry.lexicalChain, hss'.builder, Builder.untraced_scope]
  cases hchain : s.registry.lexicalChain s.builder.scope with
  | ok chain =>
    exact .inl ⟨_, rfl, congrArg Except.ok (forwarded?_of_untraces hss' hchain hshares)⟩
  | error e =>
    obtain ⟨_, rfl⟩ := Registry.noScope_of_lexicalChain hchain
    exact .inr ⟨_, rfl, rfl⟩

theorem hides_zsuper {block : Operand} (hshares : s.Shares V.counter) : V.Hides c s s'
    (BuildT.zsuper block) (BuildT.zsuper (block.mapVars (V.var c))) (V.var c) := by
  refine hides_bind (hides_forwardedArgs hshares) fun {args? _ _} _ => ?_
  refine hides_bind hides_temp fun {result _ _} _ => ?_
  cases args? with
  | none =>
    refine hides_bind hides_insertFlags fun _ => ?_
    exact hides_bind hides_raiseError fun _ => hides_pure rfl
  | some args =>
    refine hides_bind hides_ownScope fun {x _ _} _ => ?_
    refine hides_bind (hides_record rfl) fun _ => ?_
    dsimp only [Option.map_some]
    have hall : ∀ {u u' : Session}, V.Hides c u u'
        (BuildT.zsuper.forwardAll args fun args flags =>
          .zsuper ⟨x.id, result, .var .self, args, block, flags, x.refined⟩)
        (BuildT.zsuper.forwardAll (args.mapVars (V.var c)) fun args flags =>
          .zsuper ⟨x.id, V.var c result, .var .self, args, block.mapVars (V.var c), flags,
            x.refined⟩) fun v => v :=
      hides_forwardAll (fun _ _ => trivial) fun _ _ => rfl
    have hmap : (args.mapVars (V.var c)).keywords =
        args.keywords.map (Prod.map (·.mapVars (V.var c)) (·.mapVars (V.var c))) := rfl
    rw [hmap]
    rcases args.keywords with _ | ⟨⟨k, rest⟩, others⟩
    · exact hides_bind hall fun _ => hides_pure rfl
    cases k with
    | atom a =>
      cases a with
      | symbol key =>
        cases others with
        | nil =>
          have hkey : (Operand.symbol key).mapVars (V.var c) = .symbol key := rfl
          rw [List.map_singleton, Prod.map_apply, hkey]
          dsimp only
          split
          · refine hides_bind (hides_deepened [rest]) fun _ => ?_
            refine hides_bind (hides_deepened _) fun _ => hides_bind hides_temp fun _ => ?_
            refine hides_bind (hides_emit (i := .helperCall _ _ _) trivial) fun _ => ?_
            refine hides_bind (hides_ifElse (hides_emit (i := .zsuper _) trivial) ?_) fun _ =>
              hides_pure rfl
            rw [← List.map_append]
            exact hides_emit (i := .zsuper _) trivial
          · exact hides_bind hall fun _ => hides_pure rfl
        | cons => exact hides_bind hall fun _ => hides_pure rfl
      | _ => exact hides_bind hall fun _ => hides_pure rfl
    | hash | splat => exact hides_bind hall fun _ => hides_pure rfl

end Supers

section Openings

/-- A change of the builder that keeps what it holds and does not concern its list. -/
theorem hides_rearranging {f f' : Builder → Builder}
    (hscope : (f s.builder).scope = s.builder.scope)
    (hborrows : (f s.builder).borrowsTemps = s.builder.borrowsTemps)
    (hlist : (f s.builder).instrs = s.builder.instrs)
    (hline : (f s.builder).line = s.builder.line)
    (hmodule : (f s.builder).currentModule = s.builder.currentModule)
    (hensures : (f s.builder).ensures = s.builder.ensures)
    (hbodies : (f s.builder).ensureBodies = s.builder.ensureBodies)
    (hf : f' (s.builder.untraced (V.var c)) = (f s.builder).untraced (V.var c)) :
    V.Hides c s s' (updateBuilder f) (updateBuilder f') fun v => v :=
  hides_updateBuilder hscope hborrows hlist (fun h => .inl (hline ▸ h)) hmodule
    (fun hs => by rwa [Builder.Holds, hensures, hbodies]) hf

theorem hides_noteLine {line : Int32} (h : line ≠ Int32.maxValue) :
    V.Hides c s s' (noteLine line) (noteLine line) fun v => v := by
  refine hides_updateBuilder rfl rfl rfl (fun {line'} hp => ?_) rfl id rfl
  dsimp only [LineLatch.note] at hp
  split at hp
  · exact .inl hp
  · exact .inr (Option.some.inj hp ▸ h)

theorem hides_yieldClosureVar : V.Hides c s s' yieldClosureVar yieldClosureVar (V.var c) := by
  unfold yieldClosureVar
  refine hides_bind (hides_rearranging rfl rfl rfl rfl rfl rfl rfl rfl) fun _ => ?_
  refine hides_current_bind ?_
  dsimp only [Builder.untraced]
  split
  · next v hv =>
    rw [hv]
    exact hides_pure rfl
  · next hv =>
    rw [hv]
    refine hides_bind hides_temp fun _ => ?_
    exact hides_bind (hides_rearranging rfl rfl rfl rfl rfl rfl rfl rfl) fun _ => hides_pure rfl

theorem hides_pushLoop : V.Hides c s s' pushLoop pushLoop (·.mapVars (V.var c)) := by
  unfold pushLoop
  refine hides_current_bind ?_
  refine hides_bind (hides_rearranging rfl rfl rfl rfl rfl rfl rfl rfl) fun _ => ?_
  refine hides_bind hides_newLabelNamed fun _ => hides_bind hides_newLabelNamed fun _ => ?_
  refine hides_bind hides_newLabelNamed fun _ => hides_bind hides_newLabelNamed fun _ => ?_
  refine hides_bind hides_temp fun _ => hides_bind hides_insertFlags fun _ => ?_
  exact hides_bind (hides_rearranging rfl rfl rfl rfl rfl rfl rfl rfl) fun _ => hides_pure rfl

theorem hides_popLoop :
    V.Hides c s s' popLoop popLoop (Option.map (·.mapVars (V.var c))) := by
  unfold popLoop
  refine hides_current_bind (hides_bind (hides_rearranging rfl rfl rfl rfl rfl rfl rfl ?_) fun _ =>
    hides_pure List.head?_map.symm)
  simp only [Builder.untraced, List.map_tail]

theorem hides_popRescue :
    V.Hides c s s' popRescue popRescue (Option.map (·.mapVars (V.var c))) := by
  unfold popRescue
  refine hides_current_bind (hides_bind (hides_rearranging rfl rfl rfl rfl rfl rfl rfl ?_) fun _ =>
    hides_pure List.head?_map.symm)
  simp only [Builder.untraced, List.map_tail]

theorem hides_popRescuer : V.Hides c s s' popRescuer popRescuer fun l => l :=
  hides_current_bind (hides_bind (hides_rearranging rfl rfl rfl rfl rfl rfl rfl rfl) fun _ =>
    hides_pure rfl)

theorem hides_pushEnsure (hframe : ∀ i ∈ frame.instrs, i.Fine V.given) :
    V.Hides c s s' (pushEnsure frame) (pushEnsure (frame.mapVars (V.var c))) fun v => v := by
  refine hides_updateBuilder rfl rfl rfl .inl rfl (fun hs f hf => ?_) rfl
  rcases List.mem_cons.mp hf with rfl | hf
  · exact hframe
  · exact hs f hf

theorem hides_enterEnsureBody (hframe : ∀ i ∈ frame.instrs, i.Fine V.given) :
    V.Hides c s s' (enterEnsureBody frame) (enterEnsureBody (frame.mapVars (V.var c)))
      fun v => v := by
  refine hides_updateBuilder rfl rfl rfl .inl rfl (fun hs f hf => ?_) rfl
  rcases List.mem_append.mp hf with hf | hf
  · exact hs f (List.mem_append_left _ hf)
  rcases List.mem_cons.mp hf with rfl | hf
  · exact hframe
  · exact hs f (List.mem_append_right _ hf)

theorem hides_popEnsure :
    V.Hides c s s' popEnsure popEnsure (Option.map (·.mapVars (V.var c))) := by
  unfold popEnsure
  refine hides_current_bind (hides_bind (hides_updateBuilder rfl rfl rfl .inl rfl
    (fun hs f hf => ?_) ?_) fun _ => hides_pure List.head?_map.symm)
  · rcases List.mem_append.mp hf with hf | hf
    · exact hs f (List.mem_append_left _ (List.mem_of_mem_tail hf))
    · exact hs f (List.mem_append_right _ hf)
  · simp only [Builder.untraced, List.map_tail]

theorem hides_exitEnsureBody :
    V.Hides c s s' exitEnsureBody exitEnsureBody (Option.map (·.mapVars (V.var c))) := by
  unfold exitEnsureBody
  refine hides_current_bind (hides_bind (hides_updateBuilder rfl rfl rfl .inl rfl
    (fun hs f hf => ?_) ?_) fun _ => hides_pure List.head?_map.symm)
  · rcases List.mem_append.mp hf with hf | hf
    · exact hs f (List.mem_append_left _ hf)
    · exact hs f (List.mem_append_right _ (List.mem_of_mem_tail hf))
  · simp only [Builder.untraced, List.map_tail]

end Openings

end Veil

/-- What an operation answers. -/
inductive Reply where
  | done
  | var (v : Variable)
  | operand (o : Operand)
  | label (l : Label)
  | rescuer (l : Option Label)
  | loop (frame : Option LoopFrame)
  | rescue (frame : Option RescueFrame)
  | ensure (frame : Option EnsureFrame)
  deriving DecidableEq

def Reply.mapVars (f : Variable → Variable) : Reply → Reply
  | done => done
  | var v => var (f v)
  | operand o => operand (o.mapVars f)
  | label l => label l
  | rescuer l => rescuer l
  | loop frame => loop (frame.map (·.mapVars f))
  | rescue frame => rescue (frame.map (·.mapVars f))
  | ensure frame => ensure (frame.map (·.mapVars f))

namespace Act

open Session

/-- The operation with its answer. -/
def ask : Act → SessionM Reply
  | emitResult i => return .var (← Session.emitResult i)
  | temp => return .var (← Session.temp)
  | newLabel stem => return .label (← newLabelNamed stem)
  | currentModuleVar => return .var (← Session.currentModuleVar)
  | yieldClosureVar => return .var (← Session.yieldClosureVar)
  | popRescue => return .rescue (← Session.popRescue)
  | popRescuer => return .rescuer (← Session.popRescuer)
  | pushLoop => return .loop (some (← Session.pushLoop))
  | popLoop => return .loop (← Session.popLoop)
  | newEnsure => return .ensure (some (← Session.newEnsure))
  | popEnsure => return .ensure (← Session.popEnsure)
  | exitEnsureBody => return .ensure (← Session.exitEnsureBody)
  | renameMethod newName oldName => return .operand (← Session.renameMethod newName oldName)
  | searchConst name => return .operand (← Session.searchConst name)
  | searchModuleConst module name => return .operand (← Session.searchModuleConst module name)
  | call result type receiver name args block flags =>
    return .var (← Session.call result type receiver name args block flags)
  | raiseError className message => return .operand (← Session.raiseError className message)
  | classVarContainer declares => return .operand (← Session.classVarContainer declares)
  | getClassVar name => return .operand (← Session.getClassVar name)
  | putClassVar declares name value =>
    return .operand (← Session.putClassVar declares name value)
  | zsuper block => return .var (← BuildT.zsuper block)
  | a => do
    a.run
    return .done

theorem run_eq (a : Act) : a.run = (do let _ ← a.ask) := by
  cases a <;> simp only [run, ask, bind_assoc, pure_bind, bind_pure_unit]

def mapVars (f : Variable → Variable) : Act → Act
  | emit i => emit (i.mapVars f)
  | emitAtBeginning i => emitAtBeginning (i.mapVars f)
  | emitResult i => emitResult (i.mapVars f)
  | cond target value test => cond target (value.mapVars f) (test.mapVars f)
  | condNe target value test => condNe target (value.mapVars f) (test.mapVars f)
  | pushRescue frame => pushRescue (frame.mapVars f)
  | pushEnsure frame => pushEnsure (frame.mapVars f)
  | enterEnsureBody frame => enterEnsureBody (frame.mapVars f)
  | copyEnsure frame => copyEnsure (frame.mapVars f)
  | emitEnsureBody frame => emitEnsureBody (frame.mapVars f)
  | .break value => .break (value.mapVars f)
  | next value => next (value.mapVars f)
  | .return value => .return (value.mapVars f)
  | renameMethod newName oldName => renameMethod (newName.mapVars f) (oldName.mapVars f)
  | searchModuleConst module name => searchModuleConst (module.mapVars f) name
  | call result type receiver name args block flags =>
    call (f result) type (receiver.mapVars f) name (args.map (·.mapVars f)) (block.mapVars f) flags
  | raiseError className message => raiseError className (message.mapVars f)
  | putClassVar declares name value => putClassVar declares name (value.mapVars f)
  | zsuper block => zsuper (block.mapVars f)
  | a => a

/-- The operation does not ask for the variable for the module. -/
def asksModule : Act → Bool
  | currentModuleVar => true
  | _ => false

/-- The caller neither asks for variables for modules nor writes traces itself, and every line that
it notes has a next one. -/
structure Modest (given : Int32 → Coverage → Prop) (a : Act) : Prop where
  module : a.asksModule = false
  line : a.line? ≠ some Int32.maxValue
  fine : ∀ i ∈ a.given, i.Fine given

open Veil

variable {V : Veil} {c : ScopeId} {s s' : Session} {a : Act}

theorem hides_ask (h : a.Modest V.given) (hshares : a.isSuper → s.Shares V.counter) :
    V.Hides c s s' a.ask (a.mapVars (V.var c)).ask (·.mapVars (V.var c)) := by
  have hdone {x x' : SessionM Unit} (hx : V.Hides c s s' x x' fun v => v) :
      V.Hides c s s' (do x; return Reply.done) (do x'; return Reply.done) (·.mapVars (V.var c)) :=
    hides_bind hx fun _ => hides_pure rfl
  have hreply {α : Type} {x x' : SessionM α} {e : α → Reply} {φ : α → α}
      (hx : V.Hides c s s' x x' φ) (he : ∀ a, (e a).mapVars (V.var c) = e (φ a)) :
      V.Hides c s s' (do return e (← x)) (do return e (← x')) (·.mapVars (V.var c)) :=
    hides_bind hx fun {v _ _} _ => hides_pure (he v)
  cases a with
  | note line => exact hdone (hides_noteLine fun hl => h.line (congrArg some hl))
  | emit i => exact hdone (hides_emit (h.fine i (List.mem_singleton_self i)))
  | emitAtBeginning i => exact hdone (hides_emitAtBeginning (h.fine i (List.mem_singleton_self i)))
  | emitResult i =>
    exact hreply (hides_emitResult (h.fine i (List.mem_singleton_self i))) fun _ => rfl
  | temp => exact hreply hides_temp fun _ => rfl
  | newLabel stem => exact hreply hides_newLabelNamed fun _ => rfl
  | currentModuleVar => cases h.module
  | yieldClosureVar => exact hreply hides_yieldClosureVar fun _ => rfl
  | setCoverage | setMethodName | setEvalType | pushRescuer | pushRescue =>
    refine hdone ?_
    dsimp only [mapVars, run]
    exact hides_rearranging rfl rfl rfl rfl rfl rfl rfl rfl
  | cond => exact hdone hides_cond
  | condNe => exact hdone hides_condNe
  | popRescue => exact hreply hides_popRescue fun _ => rfl
  | popRescuer => exact hreply hides_popRescuer fun _ => rfl
  | pushLoop => exact hreply (e := fun frame => .loop (some frame)) hides_pushLoop fun _ => rfl
  | popLoop => exact hreply hides_popLoop fun _ => rfl
  | newEnsure => exact hreply (e := fun frame => .ensure (some frame)) hides_newEnsure fun _ => rfl
  | pushEnsure => exact hdone (hides_pushEnsure h.fine)
  | popEnsure => exact hreply hides_popEnsure fun _ => rfl
  | enterEnsureBody => exact hdone (hides_enterEnsureBody h.fine)
  | exitEnsureBody => exact hreply hides_exitEnsureBody fun _ => rfl
  | copyEnsure => exact hdone (hides_copyEnsure h.fine)
  | copyEnsures => exact hdone hides_copyEnsures
  | emitEnsureBody => exact hdone (hides_emitEnsureBody h.fine)
  | «break» => exact hdone hides_breakWith
  | next => exact hdone hides_next
  | redo => exact hdone hides_redo
  | retry => exact hdone hides_retry
  | «return» => exact hdone hides_returnWith
  | renameMethod =>
    exact hreply (e := .operand) (φ := (·.mapVars (V.var c)))
      (hides_bind (hides_emit (i := .aliasMethod _ _) trivial) fun _ => hides_pure rfl) fun _ => rfl
  | searchConst =>
    refine hreply (e := .operand) (φ := (·.mapVars (V.var c))) (hides_bind hides_temp fun _ => ?_)
      fun _ => rfl
    exact hides_bind (hides_emit (i := .searchConst _ _ _ _) trivial) fun _ => hides_pure rfl
  | searchModuleConst => exact hreply hides_searchModuleConst fun _ => rfl
  | call => exact hreply hides_call fun _ => rfl
  | raiseError => exact hreply hides_raiseError fun _ => rfl
  | classVarContainer => exact hreply hides_classVarContainer fun _ => rfl
  | getClassVar => exact hreply hides_getClassVar fun _ => rfl
  | putClassVar => exact hreply hides_putClassVar fun _ => rfl
  | zsuper => exact hreply (hides_zsuper (hshares rfl)) fun _ => rfl
  | placeClosureStart =>
    exact hdone (hides_bind hides_newClosureStart fun _ => hides_emit (i := .label _) trivial)

end Act

end ScopeIR
