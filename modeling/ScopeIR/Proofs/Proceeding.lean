import ScopeIR.Proofs.Strokes

/-! How single operations proceed: by strokes, whether they succeed or not, and as long as callers
keep what they promise, nothing but an error that can be caught, or a number at the end of its word,
stops them. -/

namespace ScopeIR

theorem Instr.closure?_rename (ρ : Renaming) (i : Instr) : (i.rename ρ).closure? = i.closure? := by
  cases i with
  | call c =>
    rw [closure?_call, Instr.rename, closure?_call]
    exact Operand.closure?_mapVars ρ.var c.block
  | zsuper z =>
    rw [closure?_zsuper, Instr.rename, closure?_zsuper]
    exact Operand.closure?_mapVars ρ.var z.block
  | _ => rfl

/-- The variable that the instruction receives an argument in. -/
def Instr.received? : Instr → Option Variable
  | .receive r _ => some r
  | _ => none

instance (depth : Nat) (v : Variable) : Decidable (v.HasRoom depth) := by
  unfold Variable.HasRoom
  split <;> infer_instance

namespace Registry

variable {α β : Type} {g : Registry} {id : ScopeId} {x : Scope}

theorem scope_eq (hx : g.scope? id = some x) : g.scope id = .ok x := by
  unfold scope? at hx
  rw [Registry.scope, hx]

/-- If the change fails, the fault is as `P` says. -/
def Blames (P : Fault → Prop) (g : Registry) (x : RegistryM α) : Prop :=
  ∀ e, x g = .error e → P e

variable {P : Fault → Prop}

theorem blames_bind {x : RegistryM α} {f : α → RegistryM β} (hx : g.Blames P x)
    (hf : ∀ {a g'}, g.Runs x a g' → g'.Blames P (f a)) : g.Blames P (x >>= f) := by
  intro e he
  simp only [bind, StateT.bind, Except.bind] at he
  split at he
  · next hfault =>
    cases he
    exact hx _ hfault
  · next hruns => exact hf hruns e he

theorem blames_of_runs {x : RegistryM α} {a : α} {g' : Registry} (h : g.Runs x a g') :
    g.Blames P x := fun e he => by
  cases h.symm.trans he

theorem blames_scope (hid : g.Has id) : g.Blames P (RegistryM.scope id) := by
  obtain ⟨x, hx⟩ := has_iff.mp hid
  exact blames_of_runs (runs_scope.mpr ⟨hx, rfl⟩)

theorem blames_updateScope {f : Scope → Scope} (hid : g.Has id) :
    g.Blames P (RegistryM.updateScope id f) := by
  obtain ⟨x, hx⟩ := has_iff.mp hid
  exact blames_of_runs (a := ()) (runs_updateScope.mpr ⟨x, hx, rfl⟩)

/-- Counting up fails only at the end of the word. -/
theorem blames_checkedAdd {n : UInt64} (h : n.toNat + 1 = UInt64.size → P .overflow) :
    g.Blames P (liftM (orOverflow (checkedAdd n 1))) := by
  intro e he
  cases hadd : checkedAdd n 1 with
  | some next =>
    rw [hadd] at he
    cases he
  | none =>
    rw [hadd] at he
    cases he
    exact h ((checkedAdd_one_eq_none_iff n).mp hadd)

theorem blames_newLabel {stem : String} (hfull : g.Full → P .overflow) (hid : g.Has id) :
    g.Blames P (RegistryM.newLabel id stem) := by
  unfold RegistryM.newLabel
  refine blames_bind (blames_scope hid) fun {x _} hscope => ?_
  obtain ⟨hx, rfl⟩ := runs_scope.mp hscope
  refine blames_bind (blames_checkedAdd fun hend => hfull (.inr (.inr ⟨id, x, hx, .inl hend⟩)))
    fun h => ?_
  obtain ⟨-, rfl⟩ := runs_liftM.mp h
  exact blames_bind (blames_updateScope hid) fun _ => blames_of_runs (runs_pure.mpr ⟨rfl, rfl⟩)

theorem blames_nextTemp (hfull : g.Full → P .overflow) (hid : g.Has id) :
    g.Blames P (RegistryM.nextTemp id) := by
  unfold RegistryM.nextTemp
  refine blames_bind (blames_scope hid) fun {x _} hscope => ?_
  obtain ⟨hx, rfl⟩ := runs_scope.mp hscope
  refine blames_bind (blames_checkedAdd fun hend => hfull (.inr (.inr ⟨id, x, hx, .inr hend⟩)))
    fun h => ?_
  obtain ⟨-, rfl⟩ := runs_liftM.mp h
  exact blames_bind (blames_updateScope hid) fun _ => blames_of_runs (runs_pure.mpr ⟨rfl, rfl⟩)

end Registry

namespace Session

variable {α β : Type} {p : Terms} {s t : Session} {i : Instr}

/-- However the action ends, it takes strokes only, and if callers keep what they promise, a fault
that stops it is excused. -/
structure Proceeds (p : Terms) (s : Session) (x : SessionM α) : Prop where
  strokes : s.Sound p → s.Strokes p (x s).2
  excused {e : Fault} : p.names → p.limits → s.Sound p → (x s).1 = .error e →
    e.Excused (x s).2.registry

/-- What the work relies on may be used to show how it proceeds. -/
theorem Proceeds.of_sound {x : SessionM α} (h : s.Sound p → s.Proceeds p x) : s.Proceeds p x where
  strokes hs := (h hs).strokes hs
  excused hnames hlimits hs := (h hs).excused hnames hlimits hs

theorem proceeds_bind {x : SessionM α} {f : α → SessionM β} (hx : s.Proceeds p x)
    (hf : ∀ {a t}, s.Runs x a t → s.Strokes p t → t.Proceeds p (f a)) :
    s.Proceeds p (x >>= f) := by
  have heq := bind_apply x f s
  rcases hr : x s with ⟨e | a, t⟩
  · rw [hr] at heq
    constructor
    · intro hs
      have hstrokes := hx.strokes hs
      rw [hr] at hstrokes
      rwa [heq]
    · intro e' hnames hlimits hs he
      rw [heq] at he ⊢
      cases he
      have hexcused := hx.excused hnames hlimits hs (e := e) (by rw [hr])
      rwa [hr] at hexcused
  · rw [hr] at heq
    have hst : s.Sound p → s.Strokes p t := fun hs => by
      have hstrokes := hx.strokes hs
      rwa [hr] at hstrokes
    constructor
    · intro hs
      rw [heq]
      have ht := hst hs
      exact ht.trans ((hf hr ht).strokes (ht.sound hs))
    · intro e hnames hlimits hs he
      rw [heq] at he ⊢
      have ht := hst hs
      exact (hf hr ht).excused hnames hlimits (ht.sound hs) he

theorem proceeds_pure {a : α} : s.Proceeds p (pure a) :=
  ⟨fun _ => .refl, fun _ _ _ he => nomatch he⟩

theorem proceeds_throw {e : BuildError} : s.Proceeds p (throw (.error e) : SessionM α) :=
  ⟨fun _ => .refl, fun _ _ _ he => by cases he; trivial⟩

theorem proceeds_current : s.Proceeds p current := ⟨fun _ => .refl, fun _ _ _ he => nomatch he⟩

theorem proceeds_get : s.Proceeds p get := ⟨fun _ => .refl, fun _ _ _ he => nomatch he⟩

theorem proceeds_liftM_except {x : Except Fault α}
    (h : p.names → p.limits → ∀ e, x = .error e → e.Excused s.registry) :
    s.Proceeds p (liftM x) := by
  cases x with
  | ok a => exact proceeds_pure
  | error e =>
    refine ⟨fun _ => .refl, fun hnames hlimits _ he => ?_⟩
    cases he
    exact h hnames hlimits _ rfl

theorem proceeds_liftM {x : RegistryM α}
    (hx : ∀ {a g}, s.registry.Runs x a g → s.registry = g ∨ s.registry.Service p.names g)
    (hblames : p.names → p.limits → s.registry.Blames (·.Excused s.registry) x) :
    s.Proceeds p (liftM x) := by
  have heq := liftM_apply x s
  rcases hr : x s.registry with e | ⟨a, g⟩
  · rw [hr] at heq
    refine ⟨fun _ => by rw [heq], fun hnames hlimits _ he => ?_⟩
    rw [heq] at he ⊢
    cases he
    exact hblames hnames hlimits e hr
  · rw [hr] at heq
    refine ⟨fun _ => ?_, fun _ _ _ he => ?_⟩
    · rw [heq]
      rcases hx hr with rfl | hg
      · exact .refl
      · exact .single (.serves hg)
    · rw [heq] at he
      cases he

theorem proceeds_updateBuilder {f : Builder → Builder}
    (h : s.Stroke p { s with builder := f s.builder }) :
    s.Proceeds p (updateBuilder f) :=
  ⟨fun _ => .single h, fun _ _ _ he => nomatch he⟩

/-- A change of the builder that leaves its list, its line and its ensure bodies alone. -/
theorem Stroke.rearranges {b : Builder} (hscope : b.scope = s.builder.scope)
    (hinstrs : b.instrs = s.builder.instrs) (hline : b.line = s.builder.line)
    (hensures : b.ensures = s.builder.ensures) (hbodies : b.ensureBodies = s.builder.ensureBodies) :
    s.Stroke p { s with builder := b } := by
  refine .arranges hscope hinstrs (by rw [hline]) (.inl (by rw [hline])) fun _ hs => ?_
  rwa [Builder.Holds, hensures, hbodies]

theorem proceeds_scope {id : ScopeId} (hid : p.names → s.registry.Has id) :
    s.Proceeds p (liftM (RegistryM.scope id)) :=
  proceeds_liftM (fun hr => .inl (Registry.runs_scope.mp hr).2)
    fun hnames _ => Registry.blames_scope (hid hnames)

theorem proceeds_ownScope : s.Proceeds p ownScope := by
  refine .of_sound fun hs => proceeds_bind proceeds_current fun hcurrent _ => ?_
  obtain ⟨rfl, rfl⟩ := runs_current.mp hcurrent
  exact proceeds_scope fun _ => hs.fit.scope

theorem proceeds_record {e : Event} (he : e.isQuiet) :
    s.Proceeds p (liftM (RegistryM.record e)) := by
  refine proceeds_liftM (fun hr => .inr ?_) fun _ _ =>
    Registry.blames_of_runs (a := ()) (Registry.runs_record.mpr rfl)
  obtain rfl := Registry.runs_record.mp hr
  exact .record he

theorem proceeds_newLabelNamed {stem : String} : s.Proceeds p (newLabelNamed stem) := by
  refine .of_sound fun hs => proceeds_bind proceeds_current fun hcurrent _ => ?_
  obtain ⟨rfl, rfl⟩ := runs_current.mp hcurrent
  exact proceeds_liftM (fun hr => .inr (.newLabel hr)) fun _ _ =>
    Registry.blames_newLabel (fun h => h) hs.fit.scope

theorem proceeds_newLabel : s.Proceeds p newLabel := proceeds_newLabelNamed

theorem proceeds_nextTemp {id : ScopeId} (hid : s.registry.Has id) :
    s.Proceeds p (liftM (RegistryM.nextTemp id)) :=
  proceeds_liftM (fun hr => .inr (.nextTemp hr)) fun _ _ =>
    Registry.blames_nextTemp (fun h => h) hid

theorem proceeds_temp : s.Proceeds p temp := by
  refine .of_sound fun hs => proceeds_bind proceeds_get fun hget _ => ?_
  obtain ⟨rfl, rfl⟩ := runs_get.mp hget
  refine proceeds_bind (proceeds_nextTemp hs.tempOwner) fun _ ht => ?_
  exact proceeds_bind (proceeds_scope fun _ => ht.serves.has hs.tempOwner) fun _ _ => proceeds_pure

theorem proceeds_currentModuleVar : s.Proceeds p currentModuleVar := by
  refine .of_sound fun hs => proceeds_bind proceeds_current fun hcurrent _ => ?_
  obtain ⟨rfl, rfl⟩ := runs_current.mp hcurrent
  split
  · exact proceeds_pure
  · refine proceeds_bind (proceeds_nextTemp hs.fit.scope) fun _ _ => ?_
    exact proceeds_bind (proceeds_updateBuilder (.rearranges rfl rfl rfl rfl rfl)) fun _ _ =>
      proceeds_pure

theorem proceeds_yieldClosureVar : s.Proceeds p yieldClosureVar := by
  unfold yieldClosureVar
  refine proceeds_bind (proceeds_updateBuilder (.rearranges rfl rfl rfl rfl rfl)) fun _ _ => ?_
  refine proceeds_bind proceeds_current fun _ _ => ?_
  split
  · exact proceeds_pure
  · refine proceeds_bind proceeds_temp fun _ _ => ?_
    exact proceeds_bind (proceeds_updateBuilder (.rearranges rfl rfl rfl rfl rfl)) fun _ _ =>
      proceeds_pure

theorem proceeds_addClosure {c : ScopeId} (hc : p.names → s.registry.Has c) :
    s.Proceeds p (addClosure c) := by
  refine .of_sound fun hs => proceeds_bind proceeds_current fun hcurrent _ => ?_
  obtain ⟨rfl, rfl⟩ := runs_current.mp hcurrent
  exact proceeds_liftM (fun hr => .inr (.addClosure hc hr)) fun _ _ =>
    Registry.blames_updateScope hs.fit.scope

theorem proceeds_insertFlags {flags : ScopeFlags} : s.Proceeds p (insertFlags flags) :=
  proceeds_updateBuilder (.rearranges rfl rfl rfl rfl rfl)

theorem proceeds_append : s.Proceeds p (append i) :=
  ⟨fun _ => .single .appends, fun _ _ _ he => nomatch he⟩

theorem proceeds_prepend : s.Proceeds p (prepend i) :=
  ⟨fun _ => .single .prepends, fun _ _ _ he => nomatch he⟩

section Chains

variable {id : ScopeId}

theorem lexicalChain_of_formed (hg : s.registry.Formed) (hid : s.registry.Has id) :
    ∃ chain, s.registry.lexicalChain id = .ok chain := by
  obtain ⟨chain, -, hchain⟩ := hg.walk hid
  exact ⟨chain, hchain⟩

theorem proceeds_lexicalChain (hid : p.names → s.registry.Has id) :
    s.Proceeds p (liftM (s.registry.lexicalChain id)) := by
  refine .of_sound fun hs => proceeds_liftM_except fun hnames _ e he => ?_
  obtain ⟨chain, hchain⟩ := lexicalChain_of_formed (hs.formed hnames) (hid hnames)
  rw [hchain] at he
  cases he

theorem proceeds_nearestMethod (hid : p.names → s.registry.Has id) :
    s.Proceeds p (liftM (s.registry.nearestMethod id)) := by
  refine .of_sound fun hs => proceeds_liftM_except fun hnames _ e he => ?_
  obtain ⟨chain, hchain⟩ := lexicalChain_of_formed (hs.formed hnames) (hid hnames)
  rw [Registry.nearestMethod, hchain] at he
  cases he

end Chains

/-- The line after one that callers may note can be written. -/
theorem proceeds_nextLine {line : Int32} (h : p.limits → line ≠ Int32.maxValue) :
    s.Proceeds p (liftM (orOverflow (nextLine line))) := by
  refine proceeds_liftM_except fun _ hlimits e he => ?_
  rw [nextLine, if_neg (h hlimits)] at he
  cases he

theorem proceeds_flushLine : s.Proceeds p flushLine := by
  refine .of_sound fun hs => proceeds_bind proceeds_current fun hcurrent _ => ?_
  obtain ⟨rfl, rfl⟩ := runs_current.mp hcurrent
  split
  · exact proceeds_pure
  next line hline =>
  refine proceeds_bind (proceeds_updateBuilder
    (.arranges rfl rfl rfl (.inr rfl) fun _ h => h)) fun _ hflushed => ?_
  refine proceeds_bind proceeds_append fun _ happended => ?_
  refine proceeds_bind proceeds_get fun _ hgot => ?_
  split
  · refine proceeds_bind proceeds_currentModuleVar fun _ hmodule => ?_
    have hstrokes : s.Strokes p _ := (hflushed.trans happended).trans (hgot.trans hmodule)
    refine proceeds_bind proceeds_get fun hget _ => ?_
    obtain ⟨rfl, rfl⟩ := runs_get.mp hget
    refine proceeds_bind
      (proceeds_nearestMethod fun _ => hstrokes.serves.has hs.fit.scope) fun _ _ => ?_
    refine proceeds_bind proceeds_ownScope fun _ _ => ?_
    refine proceeds_bind
      (proceeds_nextLine fun hlimits => hs.fit.pending hlimits hline) fun _ _ => ?_
    exact proceeds_append
  · exact proceeds_pure

theorem Stroke.fill {frame : EnsureFrame} {frames : List EnsureFrame} {xs : List Instr}
    (hframes : s.builder.ensureBodies = frame :: frames)
    (hxs : p.names → ∀ j ∈ xs, j ∈ frame.instrs ∨ s.registry.Knows j) :
    s.Stroke p { s with builder := { s.builder with
      ensureBodies := { frame with instrs := xs } :: frames } } :=
  .arranges rfl rfl rfl (.inl rfl) fun hnames hs => hs.fill hs hframes (hxs hnames)

theorem proceeds_emit (hi : p.names → s.registry.Knows i) : s.Proceeds p (emit i) := by
  unfold emit
  refine proceeds_bind proceeds_current fun hcurrent _ => ?_
  obtain ⟨rfl, rfl⟩ := runs_current.mp hcurrent
  split
  · next frame frames hframes =>
    refine proceeds_updateBuilder (.fill hframes fun hnames j hj => ?_)
    rcases List.mem_append.mp hj with hj | hj
    · exact .inl hj
    · rw [List.mem_singleton.mp hj]
      exact .inr (hi hnames)
  · exact proceeds_bind proceeds_flushLine fun _ _ => proceeds_append

theorem proceeds_emitAtBeginning (hi : p.names → s.registry.Knows i) :
    s.Proceeds p (emitAtBeginning i) := by
  unfold emitAtBeginning
  refine proceeds_bind proceeds_current fun hcurrent _ => ?_
  obtain ⟨rfl, rfl⟩ := runs_current.mp hcurrent
  split
  · next frame frames hframes =>
    refine proceeds_updateBuilder (.fill hframes fun hnames j hj => ?_)
    rcases List.mem_cons.mp hj with rfl | hj
    · exact .inr (hi hnames)
    · exact .inl hj
  · exact proceeds_prepend

/-- What passes no literal closure as a block can always be emitted. -/
theorem proceeds_emit_plain (hi : i.closure? = none) : s.Proceeds p (emit i) :=
  proceeds_emit fun _ => .of_none hi

theorem proceeds_emitResult (hi : p.names → s.registry.Knows i) :
    s.Proceeds p (emitResult i) := by
  unfold emitResult
  split
  · exact proceeds_throw
  · exact proceeds_bind (proceeds_emit hi) fun _ _ => proceeds_pure

theorem proceeds_place : s.Proceeds p place := by
  refine .of_sound fun hs => proceeds_bind proceeds_ownScope fun hscope _ => ?_
  obtain ⟨-, rfl⟩ := runs_ownScope.mp hscope
  refine proceeds_bind proceeds_current fun hcurrent _ => ?_
  obtain ⟨rfl, rfl⟩ := runs_current.mp hcurrent
  exact proceeds_bind (proceeds_nextLine hs.fit.last) fun _ _ => proceeds_pure

theorem proceeds_invalid {exit : Exit} : s.Proceeds p (invalid exit : SessionM α) :=
  proceeds_bind proceeds_place fun _ _ => proceeds_throw

theorem proceeds_escaping {exit : Exit} : s.Proceeds p (escaping exit : SessionM α) :=
  proceeds_bind proceeds_place fun _ _ => proceeds_throw

theorem proceeds_cond {target : Label} {value test : Operand} :
    s.Proceeds p (cond target value test) := by
  unfold cond
  refine proceeds_bind (proceeds_liftM_except fun _ _ e he => ?_) fun {i _} hbranch _ => ?_
  · unfold branchIf at he
    split at he
    · cases he
    · cases he
      trivial
  · have hi : Instr.branchIf? value test target = some i := by
      obtain ⟨hi, -⟩ := runs_liftM_except.mp hbranch
      cases hb : Instr.branchIf? value test target <;> simp only [branchIf, hb, reduceCtorEq] at hi
      rw [Except.ok.inj hi]
    apply proceeds_emit_plain
    rcases branchIf?_cases hi with rfl | rfl | ⟨op, rfl⟩ <;> exact rfl

theorem proceeds_condNe {target : Label} {value test : Operand} :
    s.Proceeds p (condNe target value test) := by
  apply proceeds_emit_plain
  unfold Instr.branchUnlessEqual
  split <;> exact rfl

theorem proceeds_forIn (xs : List α) {f : α → SessionM (ForInStep PUnit)}
    (hf : ∀ a ∈ xs, ∀ {u : Session}, s.Strokes p u → u.Proceeds p (f a)) {v : PUnit} :
    s.Proceeds p (forIn xs v fun a _ => f a) := by
  induction xs generalizing s v with
  | nil => exact proceeds_pure
  | cons a xs ih =>
    rw [List.forIn_cons]
    refine proceeds_bind (hf a List.mem_cons_self .refl) fun {step _} _ ht => ?_
    cases step with
    | done => exact proceeds_pure
    | yield => exact ih fun b hb _ hu => hf b (List.mem_cons_of_mem _ hb) (ht.trans hu)

section Copies

theorem proceeds_freshenLabel {ρ : Renaming} : s.Proceeds p (freshenLabel ρ i) := by
  unfold freshenLabel
  split
  · exact proceeds_bind proceeds_newLabel fun _ _ => proceeds_pure
  · exact proceeds_pure

theorem proceeds_freshenResult {ρ : Renaming} : s.Proceeds p (freshenResult ρ i) := by
  unfold freshenResult
  split
  · split
    · exact proceeds_bind proceeds_temp fun _ _ => proceeds_pure
    · exact proceeds_pure
  · exact proceeds_pure

theorem proceeds_freshen {ρ : Renaming} : s.Proceeds p (freshen ρ i) := by
  rw [freshen_eq]
  exact proceeds_bind proceeds_freshenLabel fun _ _ => proceeds_freshenResult

theorem proceeds_foldlM_freshen {xs : List Instr} {ρ : Renaming} :
    s.Proceeds p (xs.foldlM freshen ρ) := by
  induction xs generalizing s ρ with
  | nil => exact proceeds_pure
  | cons i xs ih => exact proceeds_bind proceeds_freshen fun _ _ => ih

variable {frame : EnsureFrame}

theorem proceeds_copyEnsure (hframe : p.names → ∀ i ∈ frame.instrs, s.registry.Knows i) :
    s.Proceeds p (copyEnsure frame) := by
  unfold copyEnsure
  split
  · exact proceeds_pure
  refine proceeds_bind proceeds_newLabel fun _ h₁ => ?_
  refine proceeds_bind proceeds_foldlM_freshen fun {ρ _} _ h₂ => ?_
  refine proceeds_bind proceeds_current fun _ h₃ => ?_
  refine proceeds_bind (proceeds_record rfl) fun _ h₄ => ?_
  refine proceeds_bind (proceeds_emit_plain rfl) fun _ h₅ => ?_
  refine proceeds_bind (proceeds_emit_plain rfl) fun _ h₆ => ?_
  have hbefore : s.Strokes p _ := ((h₁.trans h₂).trans h₃).trans ((h₄.trans h₅).trans h₆)
  refine proceeds_bind (proceeds_forIn _ fun i hi u hu => ?_) fun _ _ => proceeds_emit_plain rfl
  have hknows : p.names → u.registry.Knows (i.rename ρ) := by
    intro hnames c hc
    rw [Instr.closure?_rename] at hc
    exact hu.serves.has (hbefore.serves.has (hframe hnames i hi c hc))
  dsimp only
  split
  · next c hc =>
    refine proceeds_bind (proceeds_addClosure fun hnames => hknows hnames c hc) fun _ ht => ?_
    refine proceeds_bind (proceeds_emit fun hnames => ?_) fun _ _ => proceeds_pure
    exact (hknows hnames).serves ht.serves
  · exact proceeds_bind (proceeds_emit hknows) fun _ _ => proceeds_pure

theorem proceeds_copyEnsures {loop : Option LoopId} : s.Proceeds p (copyEnsures loop) := by
  refine .of_sound fun hs => proceeds_bind proceeds_current fun hcurrent _ => ?_
  obtain ⟨rfl, rfl⟩ := runs_current.mp hcurrent
  refine proceeds_bind (proceeds_forIn _ fun frame hframe u hu => ?_) fun _ _ => proceeds_pure
  refine proceeds_bind (proceeds_copyEnsure fun hnames i hi => ?_) fun _ _ => proceeds_pure
  have hmem : frame ∈ s.builder.ensures ++ s.builder.ensureBodies :=
    List.mem_append_left _ (mem_of_mem_passedEnsures hframe)
  exact (hs.fit.holds hnames frame hmem i hi).serves hu.serves

theorem proceeds_emitEnsureBody (hframe : p.names → ∀ i ∈ frame.instrs, s.registry.Knows i) :
    s.Proceeds p (emitEnsureBody frame) := by
  unfold emitEnsureBody
  refine proceeds_bind (proceeds_emit_plain rfl) fun _ h₁ => ?_
  refine proceeds_bind (proceeds_forIn _ fun i hi u hu => ?_) fun _ _ => proceeds_pure
  refine proceeds_bind (proceeds_emit fun hnames => ?_) fun _ _ => proceeds_pure
  exact ((hframe hnames i hi).serves h₁.serves).serves hu.serves

end Copies

theorem proceeds_breakWith {value : Operand} : s.Proceeds p (breakWith value) := by
  unfold breakWith
  refine proceeds_bind proceeds_current fun _ _ => ?_
  split
  · refine proceeds_bind proceeds_copyEnsures fun _ _ => ?_
    exact proceeds_bind (proceeds_emit_plain rfl) fun _ _ => proceeds_emit_plain rfl
  · refine proceeds_bind proceeds_ownScope fun _ _ => ?_
    split
    · exact proceeds_emit_plain rfl
    · split
      · exact proceeds_escaping
      · exact proceeds_invalid

theorem proceeds_next {value : Operand} :
    s.Proceeds p (BuildT.next value : SessionM Unit) := by
  unfold BuildT.next
  refine proceeds_bind proceeds_current fun _ _ => proceeds_bind proceeds_copyEnsures fun _ _ => ?_
  split
  · exact proceeds_emit_plain rfl
  · refine proceeds_bind (proceeds_emit_plain rfl) fun _ _ => ?_
    refine proceeds_bind proceeds_ownScope fun _ _ => ?_
    split
    · exact proceeds_emit_plain rfl
    · split
      · exact proceeds_escaping
      · exact proceeds_invalid

theorem proceeds_newClosureStart : s.Proceeds p newClosureStart := by
  unfold newClosureStart
  refine proceeds_bind proceeds_current fun _ _ => ?_
  exact proceeds_bind (proceeds_updateBuilder (.rearranges rfl rfl rfl rfl rfl)) fun _ _ =>
    proceeds_pure

theorem proceeds_placeClosureStart : s.Proceeds p placeClosureStart :=
  proceeds_bind proceeds_newClosureStart fun _ _ => proceeds_emit_plain rfl

theorem proceeds_redo : s.Proceeds p redo := by
  unfold redo
  refine proceeds_bind proceeds_current fun _ _ => ?_
  split
  · exact proceeds_emit_plain rfl
  · refine proceeds_bind proceeds_ownScope fun _ _ => ?_
    split
    · refine proceeds_bind (proceeds_emit_plain rfl) fun _ _ => ?_
      refine proceeds_bind ?_ fun _ _ => proceeds_emit_plain rfl
      unfold closureStart
      refine proceeds_bind proceeds_current fun _ _ => ?_
      split
      · exact proceeds_pure
      · refine proceeds_bind proceeds_newClosureStart fun _ _ => ?_
        exact proceeds_bind proceeds_prepend fun _ _ => proceeds_pure
    · split
      · exact proceeds_escaping
      · exact proceeds_invalid

theorem proceeds_retry : s.Proceeds p retry := by
  unfold retry
  refine proceeds_bind proceeds_current fun _ _ => ?_
  split
  · exact proceeds_invalid
  · refine proceeds_bind (proceeds_emit_plain rfl) fun _ _ => ?_
    refine proceeds_bind (proceeds_emit_plain rfl) fun _ _ => ?_
    exact proceeds_bind (proceeds_emit_plain rfl) fun _ _ => proceeds_insertFlags

theorem proceeds_call {result : Variable} {type : CallType} {receiver : Operand} {name : Symbol}
    {args : List Operand} {block : Operand} {flags : CallFlags}
    (hblock : p.names → ∀ c, block.closure? = some c → s.registry.Has c) :
    s.Proceeds p (call result type receiver name args block flags) := by
  unfold call
  refine proceeds_bind proceeds_ownScope fun _ ht => ?_
  refine proceeds_bind (proceeds_emit fun hnames c hc => ?_) fun _ _ => proceeds_pure
  rw [Instr.closure?_call] at hc
  exact ht.serves.has (hblock hnames c hc)

theorem proceeds_searchConst {name : Symbol} : s.Proceeds p (searchConst name) :=
  proceeds_bind proceeds_temp fun _ _ =>
    proceeds_bind (proceeds_emit_plain rfl) fun _ _ => proceeds_pure

theorem proceeds_searchModuleConst {module : Operand} {name : Symbol} :
    s.Proceeds p (searchModuleConst module name) :=
  proceeds_bind proceeds_temp fun _ _ =>
    proceeds_bind (proceeds_emit_plain rfl) fun _ _ => proceeds_pure

theorem proceeds_raiseError {className : Symbol} {message : Operand} :
    s.Proceeds p (raiseError className message) := by
  unfold raiseError
  refine proceeds_bind proceeds_searchModuleConst fun _ _ => ?_
  refine proceeds_bind proceeds_searchModuleConst fun _ _ => ?_
  refine proceeds_bind proceeds_temp fun _ _ => ?_
  exact proceeds_bind (proceeds_call fun _ _ hc => nomatch hc) fun _ _ => proceeds_pure

theorem proceeds_returnWith {value : Operand} : s.Proceeds p (returnWith value) := by
  refine .of_sound fun hs => proceeds_bind proceeds_ownScope fun hscope _ => ?_
  obtain ⟨hx, rfl⟩ := runs_ownScope.mp hscope
  refine proceeds_bind proceeds_get fun hget _ => ?_
  obtain ⟨rfl, rfl⟩ := runs_get.mp hget
  refine proceeds_bind (proceeds_nearestMethod fun hnames => ?_) fun _ _ => ?_
  · rw [(hs.formed hnames).eq_id hx]
    exact hs.fit.scope
  dsimp only
  split
  · exact proceeds_bind (proceeds_emit_plain rfl) fun _ _ => proceeds_emit_plain rfl
  split
  · split
    · exact proceeds_emit_plain rfl
    · exact proceeds_bind proceeds_raiseError fun _ _ => proceeds_pure
  refine proceeds_bind proceeds_current fun _ _ => ?_
  split
  · exact proceeds_emit_plain rfl
  · refine proceeds_bind proceeds_temp fun _ _ => ?_
    refine proceeds_bind (proceeds_emit_plain rfl) fun _ _ => ?_
    exact proceeds_bind proceeds_copyEnsures fun _ _ => proceeds_emit_plain rfl

theorem proceeds_renameMethod {newName oldName : Operand} :
    s.Proceeds p (renameMethod newName oldName) :=
  proceeds_bind (proceeds_emit_plain rfl) fun _ _ => proceeds_pure

theorem proceeds_pushLoop : s.Proceeds p pushLoop := by
  unfold pushLoop
  refine proceeds_bind proceeds_current fun _ _ => ?_
  refine proceeds_bind (proceeds_updateBuilder (.rearranges rfl rfl rfl rfl rfl)) fun _ _ => ?_
  refine proceeds_bind proceeds_newLabelNamed fun _ _ => ?_
  refine proceeds_bind proceeds_newLabelNamed fun _ _ => ?_
  refine proceeds_bind proceeds_newLabelNamed fun _ _ => ?_
  refine proceeds_bind proceeds_newLabelNamed fun _ _ => ?_
  refine proceeds_bind proceeds_temp fun _ _ => proceeds_bind proceeds_insertFlags fun _ _ => ?_
  exact proceeds_bind (proceeds_updateBuilder (.rearranges rfl rfl rfl rfl rfl)) fun _ _ =>
    proceeds_pure

theorem proceeds_newEnsure : s.Proceeds p newEnsure := by
  unfold newEnsure
  refine proceeds_bind proceeds_newLabel fun _ _ => proceeds_bind proceeds_newLabel fun _ _ => ?_
  refine proceeds_bind proceeds_newLabel fun _ _ => proceeds_bind proceeds_newLabel fun _ _ => ?_
  exact proceeds_bind proceeds_current fun _ _ => proceeds_pure

section Frames

variable {frame : EnsureFrame}

theorem proceeds_pushEnsure (hframe : p.names → ∀ i ∈ frame.instrs, s.registry.Knows i) :
    s.Proceeds p (pushEnsure frame) :=
  proceeds_updateBuilder (.arranges rfl rfl rfl (.inl rfl) fun hnames hs =>
    hs.pushEnsure (hframe hnames))

theorem proceeds_enterEnsureBody (hframe : p.names → ∀ i ∈ frame.instrs, s.registry.Knows i) :
    s.Proceeds p (enterEnsureBody frame) :=
  proceeds_updateBuilder (.arranges rfl rfl rfl (.inl rfl) fun hnames hs =>
    hs.enterBody (hframe hnames))

theorem proceeds_popEnsure : s.Proceeds p popEnsure := by
  refine proceeds_bind proceeds_current fun hcurrent _ => ?_
  obtain ⟨rfl, rfl⟩ := runs_current.mp hcurrent
  refine proceeds_bind (proceeds_updateBuilder ?_) fun _ _ => proceeds_pure
  exact .arranges rfl rfl rfl (.inl rfl) fun _ hs => hs.popEnsure hs

theorem proceeds_exitEnsureBody : s.Proceeds p exitEnsureBody := by
  refine proceeds_bind proceeds_current fun hcurrent _ => ?_
  obtain ⟨rfl, rfl⟩ := runs_current.mp hcurrent
  refine proceeds_bind (proceeds_updateBuilder ?_) fun _ _ => proceeds_pure
  exact .arranges rfl rfl rfl (.inl rfl) fun _ hs => hs.exitBody hs

end Frames

theorem proceeds_classVarContainer {declares : Bool} :
    s.Proceeds p (classVarContainer declares) := by
  refine .of_sound fun hs => proceeds_bind proceeds_get fun hget _ => ?_
  obtain ⟨rfl, rfl⟩ := runs_get.mp hget
  refine proceeds_bind proceeds_current fun hcurrent _ => ?_
  obtain ⟨rfl, rfl⟩ := runs_current.mp hcurrent
  refine proceeds_bind (proceeds_lexicalChain fun _ => hs.fit.scope) fun _ _ => ?_
  split
  · exact proceeds_pure
  · refine proceeds_bind proceeds_temp fun _ _ => ?_
    exact proceeds_bind (proceeds_emit_plain rfl) fun _ _ => proceeds_pure

/-- The owner of the frame is one of the scopes on the way outwards. -/
theorem has_of_nearestFrame {g : Registry} {id frame : ScopeId} (hg : g.Formed) (hid : g.Has id)
    (h : g.nearestFrame id = .ok frame) : g.Has frame := by
  obtain ⟨chain, -, hchain⟩ := hg.walk hid
  rw [Registry.nearestFrame, hchain] at h
  have hframe := Except.ok.inj h
  split at hframe
  · next x hfind =>
    obtain ⟨id', hx⟩ := Registry.scope?_of_mem_lexicalChain hchain (List.mem_of_find?_eq_some hfind)
    rw [← hframe, hg.eq_id hx]
    exact Registry.Has.of_scope? hx
  · rwa [← hframe]

theorem proceeds_isTopScope : s.Proceeds p isTopScope := by
  refine .of_sound fun hs => proceeds_bind proceeds_get fun {s _} hget _ => ?_
  obtain ⟨rfl, rfl⟩ := runs_get.mp hget
  refine proceeds_bind proceeds_current fun hcurrent _ => ?_
  obtain ⟨rfl, rfl⟩ := runs_current.mp hcurrent
  refine proceeds_bind (proceeds_liftM_except fun hnames _ e he => ?_) fun {frame _} hruns _ => ?_
  · obtain ⟨chain, -, hchain⟩ := (hs.formed hnames).walk hs.fit.scope
    rw [Registry.nearestFrame, hchain] at he
    cases he
  obtain ⟨hframe, rfl⟩ := runs_liftM_except.mp hruns
  have hhas : p.names → s.registry.Has frame := fun hnames =>
    has_of_nearestFrame (hs.formed hnames) hs.fit.scope hframe
  refine proceeds_bind (proceeds_lexicalChain hhas) fun _ _ => ?_
  refine proceeds_bind (proceeds_liftM_except fun hnames _ e he => ?_) fun _ _ => proceeds_pure
  obtain ⟨x, hx⟩ := Registry.has_iff.mp (hhas hnames)
  rw [Registry.scope_eq hx] at he
  cases he

theorem proceeds_getClassVar {name : Symbol} : s.Proceeds p (getClassVar name) := by
  unfold getClassVar
  refine proceeds_bind proceeds_isTopScope fun _ _ => ?_
  split
  · exact proceeds_raiseError
  · refine proceeds_bind proceeds_classVarContainer fun _ _ => ?_
    refine proceeds_bind proceeds_temp fun _ _ => ?_
    exact proceeds_bind (proceeds_emit_plain rfl) fun _ _ => proceeds_pure

theorem proceeds_putClassVar {declares : Bool} {name : Symbol} {value : Operand} :
    s.Proceeds p (putClassVar declares name value) := by
  unfold putClassVar
  refine proceeds_bind proceeds_isTopScope fun _ _ => ?_
  split
  · exact proceeds_raiseError
  · refine proceeds_bind proceeds_classVarContainer fun _ _ => ?_
    exact proceeds_bind (proceeds_emit_plain rfl) fun _ _ => proceeds_pure

section Supers

variable {depth : Nat} {list : List Instr} {receives : Bool} {block : Operand}

/-- The lists that a super call may find the received arguments in: those of the builders at hand,
and those that are stored. -/
def lists (s : Session) (chain : List Scope) : List (List Instr) :=
  (s.builder :: s.outer).map (·.instrs.toList) ++ chain.map (·.instrs.getD [])

/-- Where a super call can find the received arguments, no variable lies so many scopes up that the
closures around the call cannot be added. -/
def Shallow (s : Session) : Prop :=
  ∀ chain ∈ (s.registry.lexicalChain s.builder.scope).toOption, ∀ list ∈ s.lists chain,
    ∀ i ∈ list, ∀ r ∈ i.received?, r.HasRoom (chain.takeWhile (·.kind.isClosureLike)).length

instance (s : Session) : Decidable s.Shallow := by
  unfold Shallow
  infer_instance

theorem args_of_forwardedArgs {args : ForwardedArgs} (h : s.Runs forwardedArgs? (some args) t) :
    ∃ chain list receives, s.registry.lexicalChain s.builder.scope = .ok chain ∧
      list ∈ s.lists chain ∧
      args = .ofInstrs list (chain.takeWhile (·.kind.isClosureLike)).length receives := by
  obtain ⟨chain, hchain, hargs, -⟩ := runs_forwarded.mp h
  simp only [forwarded?] at hargs
  split at hargs
  · cases hargs
  split at hargs
  · cases hargs
  next x hx =>
  split at hargs
  · cases hargs
  split at hargs
  · next b hb =>
    obtain rfl := Option.some.inj hargs
    refine ⟨chain, b.instrs.toList, _, hchain, List.mem_append_left _ ?_, rfl⟩
    exact List.mem_map_of_mem (List.mem_of_getElem? hb)
  · obtain rfl := Option.some.inj hargs
    refine ⟨chain, x.instrs.getD [], _, hchain, List.mem_append_right _ ?_, rfl⟩
    exact List.mem_map_of_mem (List.mem_of_getElem? hx)

theorem proceeds_forwardedArgs : s.Proceeds p forwardedArgs? := by
  refine .of_sound fun hs => ?_
  rw [forwardedArgs?_eq]
  refine proceeds_bind proceeds_get fun hget _ => proceeds_liftM_except fun hnames _ e he => ?_
  obtain ⟨rfl, rfl⟩ := runs_get.mp hget
  obtain ⟨chain, hchain⟩ := lexicalChain_of_formed (hs.formed hnames) hs.fit.scope
  rw [hchain] at he
  cases he

/-- Operands that have room can be read from inside. -/
theorem proceeds_deepened {os os' : List Operand}
    (h : p.limits → os.mapM (Operand.deepen depth.toUInt64) = some os') :
    s.Proceeds p (deepened depth os) := by
  refine proceeds_liftM_except fun _ hlimits e he => ?_
  rw [h hlimits] at he
  cases he

theorem proceeds_ifElse {value test : Operand} {yes no : SessionM Unit}
    (hyes : ∀ {u : Session}, s.Strokes p u → u.Proceeds p yes)
    (hno : ∀ {u : Session}, s.Strokes p u → u.Proceeds p no) :
    s.Proceeds p (BuildT.ifElse value test yes no : SessionM Unit) := by
  unfold BuildT.ifElse
  refine proceeds_bind proceeds_newLabel fun _ h₁ => proceeds_bind proceeds_newLabel fun _ h₂ => ?_
  refine proceeds_bind proceeds_condNe fun _ h₃ => ?_
  have hbefore : s.Strokes p _ := (h₁.trans h₂).trans h₃
  refine proceeds_bind (hyes hbefore) fun _ h₄ => ?_
  refine proceeds_bind (proceeds_emit_plain rfl) fun _ h₅ => ?_
  refine proceeds_bind (proceeds_emit_plain rfl) fun _ h₆ => ?_
  have hbetween : s.Strokes p _ := hbefore.trans (h₄.trans (h₅.trans h₆))
  exact proceeds_bind (hno hbetween) fun _ _ => proceeds_emit_plain rfl

theorem proceeds_forwardAll (receives : Bool) {forward : List Operand → CallFlags → ZSuper}
    (hforward : ∀ os flags, p.names → s.registry.Knows (.zsuper (forward os flags)))
    (hlist : p.limits → ∀ r q, .receive r q ∈ list → r.HasRoom depth) :
    s.Proceeds p (BuildT.zsuper.forwardAll (.ofInstrs list depth receives)
      fun os flags => .zsuper (forward os flags) : SessionM Unit) := by
  unfold BuildT.zsuper.forwardAll
  refine proceeds_bind ?_ fun _ ht => proceeds_emit fun hnames =>
    (hforward _ _ hnames).serves ht.serves
  cases receives with
  | true => exact proceeds_deepened fun hlimits => mapM_deepen_all (hlist hlimits)
  | false => exact proceeds_deepened fun hlimits =>
      mapM_deepen fun o => deepen_positional (hlist hlimits) (o := o)

theorem proceeds_zsuper (hblock : p.names → ∀ c, block.closure? = some c → s.registry.Has c)
    (hshallow : p.limits → s.Shallow) :
    s.Proceeds p (BuildT.zsuper block : SessionM Variable) := by
  unfold BuildT.zsuper
  refine proceeds_bind proceeds_forwardedArgs fun {args? _} hargs _ => ?_
  obtain rfl := eq_of_forwardedArgs hargs
  refine proceeds_bind proceeds_temp fun {result _} _ h₁ => ?_
  cases args? with
  | none =>
    refine proceeds_bind proceeds_insertFlags fun _ _ => ?_
    exact proceeds_bind proceeds_raiseError fun _ _ => proceeds_pure
  | some args =>
    obtain ⟨chain, list, receives, hchain, hmem, rfl⟩ := args_of_forwardedArgs hargs
    have hlist : p.limits → ∀ r q, .receive r q ∈ list →
        r.HasRoom (chain.takeWhile (·.kind.isClosureLike)).length :=
      fun hlimits r q hr => hshallow hlimits chain (by rw [hchain]; rfl) list hmem _ hr r rfl
    refine proceeds_bind proceeds_ownScope fun {x _} _ h₂ => ?_
    refine proceeds_bind (proceeds_record rfl) fun {_ u} _ h₃ => ?_
    have hbefore : s.Strokes p u := (h₁.trans h₂).trans h₃
    have hforward : ∀ {v : Session} (os : List Operand) (flags : CallFlags), u.Strokes p v →
        p.names → v.registry.Knows
          (.zsuper ⟨x.id, result, .var .self, os, block, flags, x.refined⟩) := by
      intro v os flags hv hnames c hc
      rw [Instr.closure?_zsuper] at hc
      exact hv.serves.has (hbefore.serves.has (hblock hnames c hc))
    have hall := proceeds_forwardAll receives
      (fun os flags => hforward os flags .refl) hlist
    dsimp only
    split
    · next key rest hkeywords =>
      split
      · have hrest : p.limits →
            Operand.deepen (chain.takeWhile (·.kind.isClosureLike)).length.toUInt64 rest =
              some (rest.inside (chain.takeWhile (·.kind.isClosureLike)).length) := by
          intro hlimits
          have hmem : (Operand.symbol key, rest) ∈ (ForwardedArgs.ofInstrs list
              (chain.takeWhile (·.kind.isClosureLike)).length receives).keywords :=
            hkeywords ▸ List.mem_singleton_self _
          rcases List.mem_append.mp hmem with hmem | hmem
          · exact (deepen_value (hlist hlimits) (.inr (List.mem_reverse.mp hmem))).2
          · exact (deepen_value (hlist hlimits) (.inl hmem)).2
        refine proceeds_bind
          (proceeds_deepened fun hlimits => mapM_deepen fun o ho => ?_) fun _ h₄ => ?_
        · rw [List.mem_singleton.mp ho]
          exact hrest hlimits
        refine proceeds_bind (proceeds_deepened fun hlimits =>
          mapM_deepen fun o => deepen_positional (hlist hlimits) (o := o)) fun _ h₅ => ?_
        refine proceeds_bind proceeds_temp fun _ h₆ => ?_
        refine proceeds_bind (proceeds_emit_plain rfl) fun {_ v} _ h₇ => ?_
        have hv : u.Strokes p v := (h₄.trans h₅).trans (h₆.trans h₇)
        refine proceeds_bind (proceeds_ifElse (fun hw => ?_) fun hw => ?_) fun _ _ => proceeds_pure
        · exact proceeds_emit (hforward _ _ (hv.trans hw))
        · exact proceeds_emit (hforward _ _ (hv.trans hw))
      · exact proceeds_bind hall fun _ _ => proceeds_pure
    · exact proceeds_bind hall fun _ _ => proceeds_pure

end Supers

end Session

namespace Act

open Session

/-- The literal closures that the operation is given to pass as blocks, now or later. -/
def handed : Act → List ScopeId
  | call _ _ _ _ _ block _ | zsuper block => block.closure?.toList
  | a => a.given.filterMap Instr.closure?

/-- The line that the operation notes. -/
def line? : Act → Option Int32
  | note line => some line
  | _ => none

def isSuper : Act → Bool
  | zsuper _ => true
  | _ => false

/-- The operation keeps what callers promise. -/
structure Keeps (p : Terms) (s : Session) (a : Act) : Prop where
  names : p.names → ∀ c ∈ a.handed, s.registry.Has c
  line : p.limits → a.line? ≠ some Int32.maxValue
  shallow : p.limits → a.isSuper → s.Shallow

theorem keeps_iff {p : Terms} {s : Session} {a : Act} : a.Keeps p s ↔
    (p.names → ∀ c ∈ a.handed, s.registry.Has c) ∧
      (p.limits → a.line? ≠ some Int32.maxValue) ∧
      (p.limits → a.isSuper → s.Shallow) :=
  ⟨fun h => ⟨h.names, h.line, h.shallow⟩,
    fun ⟨hnames, hline, hshallow⟩ => ⟨hnames, hline, hshallow⟩⟩

instance {p : Terms} [Decidable p.names] [Decidable p.limits] (s : Session) (a : Act) :
    Decidable (a.Keeps p s) := decidable_of_iff' _ keeps_iff

/-- Every operation proceeds. -/
theorem proceeds {p : Terms} {s : Session} {a : Act} (h : a.Keeps p s) : s.Proceeds p a.run := by
  have hunit {α : Type} {x : SessionM α} (hx : s.Proceeds p x) : s.Proceeds p (do let _ ← x) :=
    proceeds_bind hx fun _ _ => proceeds_pure
  have hgiven {is : List Instr} (his : a.handed = is.filterMap Instr.closure?)
      (hnames : p.names) (i : Instr) (hi : i ∈ is) : s.registry.Knows i := fun c hc =>
    h.names hnames c (his ▸ List.mem_filterMap.mpr ⟨i, hi, hc⟩)
  have hblock {block : Operand} (hblock : a.handed = block.closure?.toList)
      (hnames : p.names) (c : ScopeId) (hc : block.closure? = some c) : s.registry.Has c :=
    h.names hnames c (hblock ▸ Option.mem_toList.mpr hc)
  cases a with
  | note line =>
    have hstroke : s.Stroke p { s with builder := { s.builder with line := _ } } :=
      .notes fun hlimits heq => h.line hlimits (congrArg some heq)
    exact ⟨fun _ => .single hstroke, fun _ _ _ he => nomatch he⟩
  | setCoverage | setMethodName | setEvalType | pushRescue | pushRescuer =>
    exact ⟨fun _ => .single (.rearranges rfl rfl rfl rfl rfl), fun _ _ _ he => nomatch he⟩
  | popRescue | popRescuer | popLoop =>
    refine hunit (proceeds_bind proceeds_current fun hcurrent _ => ?_)
    obtain ⟨rfl, rfl⟩ := runs_current.mp hcurrent
    exact proceeds_bind (proceeds_updateBuilder (.rearranges rfl rfl rfl rfl rfl)) fun _ _ =>
      proceeds_pure
  | emit i => exact proceeds_emit fun hp => hgiven rfl hp i (List.mem_singleton_self i)
  | emitAtBeginning i =>
    exact proceeds_emitAtBeginning fun hp => hgiven rfl hp i (List.mem_singleton_self i)
  | emitResult i =>
    exact hunit (proceeds_emitResult fun hp => hgiven rfl hp i (List.mem_singleton_self i))
  | temp => exact hunit proceeds_temp
  | newLabel stem => exact hunit proceeds_newLabelNamed
  | currentModuleVar => exact hunit proceeds_currentModuleVar
  | yieldClosureVar => exact hunit proceeds_yieldClosureVar
  | cond target value test => exact proceeds_cond
  | condNe target value test => exact proceeds_condNe
  | pushLoop => exact hunit proceeds_pushLoop
  | newEnsure => exact hunit proceeds_newEnsure
  | pushEnsure frame => exact proceeds_pushEnsure (hgiven rfl)
  | popEnsure => exact hunit proceeds_popEnsure
  | enterEnsureBody frame => exact proceeds_enterEnsureBody (hgiven rfl)
  | exitEnsureBody => exact hunit proceeds_exitEnsureBody
  | copyEnsure frame => exact proceeds_copyEnsure (hgiven rfl)
  | copyEnsures loop => exact proceeds_copyEnsures
  | emitEnsureBody frame => exact proceeds_emitEnsureBody (hgiven rfl)
  | «break» value => exact proceeds_breakWith
  | next value => exact proceeds_next
  | redo => exact proceeds_redo
  | retry => exact proceeds_retry
  | «return» value => exact proceeds_returnWith
  | renameMethod newName oldName => exact hunit proceeds_renameMethod
  | searchConst name => exact hunit proceeds_searchConst
  | searchModuleConst module name => exact hunit proceeds_searchModuleConst
  | call => exact hunit (proceeds_call (hblock rfl))
  | raiseError => exact hunit proceeds_raiseError
  | classVarContainer => exact hunit proceeds_classVarContainer
  | getClassVar => exact hunit proceeds_getClassVar
  | putClassVar => exact hunit proceeds_putClassVar
  | zsuper block =>
    exact hunit (proceeds_zsuper (hblock rfl) fun hlimits => h.shallow hlimits rfl)
  | placeClosureStart => exact proceeds_placeClosureStart

end Act

end ScopeIR
