import ScopeIR.Proofs.Constructs

/-! What exits build: copies of the ensure bodies that are left, and then a jump or a transfer. -/

namespace ScopeIR.Session

variable {s t u : Session}

/-- A break leaves the innermost loop with its result, or else the call of the block. -/
inductive Breaks (value : Operand) (s t : Session) : List Instr → Prop
  | loop {frame : LoopFrame} {u : Session} {cs : List Instr} :
    s.builder.loops.head? = some frame →
    CopiesAll (passedEnsures (some frame.id) s.builder.ensures) s u cs →
    u.Emits t [.copy frame.result value, .jump frame.loopEnd] →
    Breaks value s t (cs ++ [.copy frame.result value, .jump frame.loopEnd])
  | block {x : Scope} {parent : ScopeId} : s.builder.loops = [] →
    s.registry.scope? s.builder.scope = some x → x.kind.isClosure →
    s.Emits t [.breakOut value parent] → Breaks value s t [.breakOut value parent]

/-- A next ends the iteration of the innermost loop, or else the block. -/
inductive Nexts (value : Operand) (s t : Session) : List Instr → Prop
  | loop {frame : LoopFrame} {u : Session} {cs : List Instr} :
    s.builder.loops.head? = some frame →
    CopiesAll (passedEnsures (some frame.id) s.builder.ensures) s u cs →
    u.Emits t [.jump frame.iterEnd] → Nexts value s t (cs ++ [.jump frame.iterEnd])
  | block {x : Scope} {u : Session} {cs : List Instr} : s.builder.loops = [] →
    CopiesAll s.builder.ensures s u cs → t.registry.scope? t.builder.scope = some x →
    x.kind.isClosure → u.Emits t [.threadPoll, .ret value] →
    Nexts value s t (cs ++ [.threadPoll, .ret value])

inductive Redoes (s t : Session) : List Instr → Prop
  | loop {frame : LoopFrame} : s.builder.loops.head? = some frame →
    s.Emits t [.jump frame.iterStart] → Redoes s t [.jump frame.iterStart]
  | block {start : Label} : s.builder.loops = [] → t.builder.closureStart = some start →
    s.Emits t [.threadPoll, .jump start] → Redoes s t [.threadPoll, .jump start]

theorem Breaks.emits {value : Operand} {xs : List Instr} (h : s.Breaks value t xs) :
    s.Emits t xs := by
  cases h with
  | loop _ hcopies hjump => exact hcopies.emits.trans hjump
  | block _ _ _ hemits => exact hemits

theorem Nexts.emits {value : Operand} {xs : List Instr} (h : s.Nexts value t xs) :
    s.Emits t xs := by
  cases h with
  | loop _ hcopies hjump => exact hcopies.emits.trans hjump
  | block _ hcopies _ _ hret => exact hcopies.emits.trans hret

theorem Redoes.emits {xs : List Instr} (h : s.Redoes t xs) : s.Emits t xs := by
  cases h with
  | loop _ hjump => exact hjump
  | block _ _ hjump => exact hjump

theorem not_runs_invalid {α : Type} {exit : Exit} {a : α} : ¬ s.Runs (invalid exit) a t := by
  simp only [invalid, runs_bind, not_runs_throw, and_false, exists_false, not_false_eq_true]

theorem not_runs_escaping {α : Type} {exit : Exit} {a : α} : ¬ s.Runs (escaping exit) a t := by
  simp only [escaping, runs_bind, not_runs_throw, and_false, exists_false, not_false_eq_true]

theorem breaks_of_breakWith {value : Operand} {v : Unit} (h : s.Runs (breakWith value) v t) :
    ∃ xs, s.Breaks value t xs := by
  simp only [breakWith, runs_bind, runs_current] at h
  obtain ⟨_, _, ⟨rfl, rfl⟩, h⟩ := h
  split at h
  · next frame hframe =>
    simp only [runs_bind] at h
    obtain ⟨_, u, hcopies, _, _, hcopy, hjump⟩ := h
    obtain ⟨cs, hcs⟩ := copiesAll_of_copyEnsures hcopies
    exact ⟨_, .loop hframe hcs ((emits_of_emit hcopy).trans (emits_of_emit hjump))⟩
  · next hframe =>
    simp only [runs_bind, runs_ownScope] at h
    obtain ⟨x, _, ⟨hx, rfl⟩, h⟩ := h
    split at h
    · next hkind _ =>
      exact ⟨_, .block (List.head?_eq_none_iff.mp hframe) hx hkind (emits_of_emit h)⟩
    · split at h
      · exact absurd h not_runs_escaping
      · exact absurd h not_runs_invalid

theorem emits_of_closureStart {start : Label} (h : s.Runs closureStart start t) :
    s.Emits t [] ∧ t.builder.closureStart = some start := by
  obtain ⟨hlabel, rfl⟩ | ⟨hnone, rfl, u, hstart, rfl⟩ := runs_closureStart h
  · exact ⟨.refl t, hlabel⟩
  · obtain ⟨-, rfl⟩ := runs_newClosureStart.mp hstart
    refine ⟨⟨⟨growsTo_announce .., rfl, rfl, rfl, rfl, ?_, le_rfl, .inr ⟨hnone, rfl⟩,
      (addToBody_nil _).symm, ?_⟩, ⟨rfl, rfl, rfl, rfl⟩⟩, rfl⟩
    · intro f hf
      simp only [announce, Builder.prepend, FlagSet.contains_union, hf, Bool.true_or]
    -- the label stands in front of all that was there
    · intro ys hys
      rw [Builder.prologue, hnone] at hys
      have hnil : withoutLines [] = [] := rfl
      rw [hnil, ite_self, List.append_nil]
      simp only [announce, Builder.prepend, Array.toList_append, withoutLines_append, hys]
      rfl

theorem redoes_of_redo {v : Unit} (h : s.Runs redo v t) : ∃ xs, s.Redoes t xs := by
  simp only [redo, runs_bind, runs_current] at h
  obtain ⟨_, _, ⟨rfl, rfl⟩, h⟩ := h
  split at h
  · next frame hframe => exact ⟨_, .loop hframe (emits_of_emit h)⟩
  · next hframe =>
    simp only [runs_bind, runs_ownScope] at h
    obtain ⟨x, _, ⟨hx, rfl⟩, h⟩ := h
    split at h
    · simp only [runs_bind] at h
      obtain ⟨_, _, hpoll, start, u, hstart, hjump⟩ := h
      obtain ⟨hu, hstart⟩ := emits_of_closureStart hstart
      have hjump := emits_of_emit hjump
      refine ⟨_, .block (List.head?_eq_none_iff.mp hframe) ?_
        (((emits_of_emit hpoll).trans hu).trans hjump)⟩
      rcases hjump.start with hsame | ⟨hnone, -⟩
      · exact hsame.trans hstart
      · cases hstart.symm.trans hnone
    · split at h
      · exact absurd h not_runs_escaping
      · exact absurd h not_runs_invalid

theorem emits_of_retry {v : Unit} (h : s.Runs retry v t) :
    ∃ frame, s.builder.rescues.head? = some frame ∧ s.Emits t [.threadPoll,
      .putGlobal BuildT.currentException frame.savedException, .jump frame.entry] := by
  simp only [retry, runs_bind, runs_current] at h
  obtain ⟨_, _, ⟨rfl, rfl⟩, h⟩ := h
  split at h
  · exact absurd h not_runs_invalid
  · next frame frames hframe =>
    simp only [runs_bind] at h
    obtain ⟨_, _, hpoll, _, _, hput, _, _, hjump, hflags⟩ := h
    refine ⟨frame, by rw [hframe, List.head?_cons], ?_⟩
    have ht := ((emits_of_emit hpoll).trans (emits_of_emit hput)).trans (emits_of_emit hjump)
    exact ht.trans (emits_of_insertFlags hflags)

theorem runs_call {result r : Variable} {type : CallType} {receiver : Operand} {name : Symbol}
    {args : List Operand} {given : Operand} {flags : CallFlags}
    (h : s.Runs (call result type receiver name args given flags) r t) :
    r = result ∧ ∃ refined,
      s.Emits t [.call ⟨type, some result, name, receiver, args, given, flags, refined⟩] := by
  simp only [call, runs_bind, runs_ownScope, runs_pure] at h
  obtain ⟨x, _, ⟨-, rfl⟩, _, _, hemit, rfl, rfl⟩ := h
  exact ⟨rfl, x.refined, emits_of_emit hemit⟩

/-- The code that raises an error of the named class. -/
inductive Raising (className : Symbol) (message : Operand) : List Instr → Prop
  | mk (exceptionClass kernel result : Variable) (refined : Bool) : Raising className message
    [.searchModuleConst exceptionClass .objectClass className true,
      .searchModuleConst kernel .objectClass ⟨"Kernel"⟩ true,
      .call ⟨.normal, some result, ⟨"raise"⟩, kernel, [exceptionClass, message], .nullBlock, ∅,
        refined⟩]

theorem emits_of_raiseError {className : Symbol} {message r : Operand}
    (h : s.Runs (raiseError className message) r t) :
    ∃ xs, Raising className message xs ∧ s.Emits t xs := by
  simp only [raiseError, searchModuleConst, plainCall, runs_bind, runs_pure] at h
  obtain ⟨_, _, ⟨c, _, hc, _, _, hclass, rfl, rfl⟩, _, _, ⟨k, _, hk, _, _, hkernel, rfl, rfl⟩,
    r, _, hr, _, _, hcall, rfl, rfl⟩ := h
  obtain ⟨-, refined, hcall⟩ := runs_call hcall
  refine ⟨_, .mk c k r refined, ?_⟩
  have hs := (takesTemp_of_temp hc).toEmits.trans (emits_of_emit hclass)
  have hs := (hs.trans (takesTemp_of_temp hk).toEmits).trans (emits_of_emit hkernel)
  exact (hs.trans (takesTemp_of_temp hr).toEmits).trans hcall

theorem Raising.isPlain {className : Symbol} {message : Operand} {xs : List Instr}
    (h : Raising className message xs) : ∀ i ∈ xs, i.isPlain := by
  cases h
  simp only [List.mem_cons, List.not_mem_nil, or_false]
  rintro i (rfl | rfl | rfl) <;> rfl

/-- A return transfers control, or leaves the method after copies of all its ensure bodies. -/
inductive Returns (value : Operand) (s t : Session) : List Instr → Prop
  | transfer {x : Scope} {xs : List Instr} : s.registry.scope? s.builder.scope = some x →
    x.kind ≠ .method → (∀ i ∈ xs, i.isPlain) → s.Emits t xs → Returns value s t xs
  | plain : s.builder.ensures = [] → s.Emits t [.ret value] → Returns value s t [.ret value]
  | copies {result : Variable} {s₁ u : Session} {cs : List Instr} :
    s.Emits s₁ [.copy result value] → CopiesAll s.builder.ensures s₁ u cs →
    u.Emits t [.ret result] → Returns value s t (.copy result value :: cs ++ [.ret result])

theorem Returns.emits {value : Operand} {xs : List Instr} (h : s.Returns value t xs) :
    s.Emits t xs := by
  cases h with
  | transfer _ _ _ hemits => exact hemits
  | plain _ hret => exact hret
  | copies hcopy hcopies hret => exact (hcopy.trans hcopies.emits).trans hret

theorem returns_of_returnWith {value : Operand} {v : Unit} (h : s.Runs (returnWith value) v t) :
    ∃ xs, s.Returns value t xs := by
  simp only [returnWith, runs_bind, runs_ownScope, runs_get, runs_liftM_except] at h
  obtain ⟨x, _, ⟨hx, rfl⟩, _, _, ⟨rfl, rfl⟩, chain, _, ⟨-, rfl⟩, h⟩ := h
  split at h
  · next hkind =>
    have hne : x.kind ≠ .method := by
      intro he
      rw [he] at hkind
      cases hkind
    simp only [runs_bind] at h
    obtain ⟨_, _, hcheck, hreturn⟩ := h
    refine ⟨_, .transfer hx hne ?_ ((emits_of_emit hcheck).trans (emits_of_emit hreturn))⟩
    simp only [List.mem_append, List.mem_singleton]
    rintro i (rfl | rfl) <;> rfl
  split at h
  · next hkind =>
    have hne : x.kind ≠ .method := by
      intro he
      rw [he] at hkind
      cases hkind
    split at h
    · refine ⟨_, .transfer hx hne ?_ (emits_of_emit h)⟩
      simp only [List.mem_singleton]
      rintro i rfl
      rfl
    · simp only [runs_bind, runs_pure] at h
      obtain ⟨_, _, hraise, -, rfl⟩ := h
      obtain ⟨xs, hxs, hemits⟩ := emits_of_raiseError hraise
      exact ⟨xs, .transfer hx hne hxs.isPlain hemits⟩
  simp only [runs_bind, runs_current] at h
  obtain ⟨_, _, ⟨rfl, rfl⟩, h⟩ := h
  split at h
  · next hnil => exact ⟨_, .plain (List.isEmpty_iff.mp hnil) (emits_of_emit h)⟩
  · simp only [runs_bind] at h
    obtain ⟨result, _, hresult, _, s₁, hcopy, _, u, hcopies, hret⟩ := h
    have hs₁ := (takesTemp_of_temp hresult).toEmits.trans (emits_of_emit hcopy)
    obtain ⟨cs, hcs⟩ := copiesAll_of_copyEnsures hcopies
    rw [passedEnsures, hs₁.sameStacks.ensures] at hcs
    exact ⟨_, .copies hs₁ hcs (emits_of_emit hret)⟩

theorem eq_of_forwardedArgs {args : Option ForwardedArgs} (h : s.Runs forwardedArgs? args t) :
    s = t := by
  obtain ⟨chain, -, -, ht⟩ := runs_forwarded.mp h
  exact ht

end ScopeIR.Session

namespace ScopeIR.TrailM

open Session

variable {s : Session} {h : Trail} {I : Nesting × Session → Prop}

theorem builds_next {value : Operand} {Q : Unit → Session → Trail → List Instr → Prop}
    (H : ∀ {t xs}, s.Nexts value t xs → Q () t h xs) :
    Builds (BuildT.next value) s h I Q := by
  unfold BuildT.next
  refine Yields.lift_bind fun hcurrent => ?_
  obtain ⟨rfl, rfl⟩ := runs_current.mp hcurrent
  refine Yields.lift_bind fun hcopies => ?_
  obtain ⟨cs, hcs⟩ := copiesAll_of_copyEnsures hcopies
  cases hloop : s.builder.currentLoop with
  | some frame =>
    rw [hloop] at hcs
    refine Yields.lift fun hjump => ?_
    have hjump := emits_of_emit hjump
    exact ⟨_, hcs.emits.trans hjump, H (.loop hloop hcs hjump)⟩
  | none =>
    rw [hloop] at hcs
    refine Yields.lift_bind fun hpoll => Yields.lift_bind fun hscope => ?_
    obtain ⟨hx, rfl⟩ := runs_ownScope.mp hscope
    split
    · next hkind =>
      refine Yields.lift fun hret => ?_
      have hret := emits_of_emit hret
      obtain ⟨y, hy, hxy⟩ := hret.registry.scope hx
      rw [← hret.scope] at hy
      rw [← hxy.kind_eq] at hkind
      have hend := (emits_of_emit hpoll).trans hret
      have hnil := List.head?_eq_none_iff.mp hloop
      exact ⟨_, hcs.emits.trans hend, H (.block hnil hcs hy hkind hend)⟩
    · split
      · exact Yields.lift fun h => absurd h not_runs_escaping
      · exact Yields.lift fun h => absurd h not_runs_invalid

theorem builds_forwardAll {args : ForwardedArgs} {forward : List Operand → CallFlags → Instr}
    {Q : Unit → Session → Trail → List Instr → Prop}
    (H : ∀ {os flags t}, s.Emits t [forward os flags] → Q () t h [forward os flags]) :
    Builds (BuildT.zsuper.forwardAll args forward) s h I Q := by
  unfold BuildT.zsuper.forwardAll
  refine Yields.lift_bind fun hdeepen => Yields.lift fun hemit => ?_
  simp only [deepened, runs_liftM_except] at hdeepen
  obtain ⟨-, rfl⟩ := hdeepen
  exact ⟨_, emits_of_emit hemit, H (emits_of_emit hemit)⟩

/-- A super call emits the call, or code that raises. It tests for an empty hash if further keywords
are all that it would pass by keyword. -/
theorem builds_zsuper {given : Operand} {Q : Variable → Session → Trail → List Instr → Prop}
    (hraise : ∀ {result t xs}, s.Runs forwardedArgs? none s →
      Raising ⟨"RuntimeError"⟩ (.ofString BuildT.superOutsideMethod) xs → s.Emits t xs →
      t.builder.flags.contains .usesZSuper → Q result t h xs)
    (hforward : ∀ {args result t call}, s.Runs forwardedArgs? (some args) s →
      s.Emits t [.zsuper call] → Q result t h [.zsuper call])
    (hrest : ∀ {args result test elseLabel endLabel s₁ s₂ s₃ t rest short long},
      s.Runs forwardedArgs? (some args) s → s.Emits s₁ [.helperCall test .isHashEmpty rest] →
      s₁.MakesLabel s₂ "LBL" elseLabel → s₂.MakesLabel s₃ "LBL" endLabel →
      s₃.Emits t [.branch .isFalse elseLabel test none, .zsuper short, .jump endLabel,
        .label elseLabel, .zsuper long, .label endLabel] →
      Q result t h [.helperCall test .isHashEmpty rest, .branch .isFalse elseLabel test none,
        .zsuper short, .jump endLabel, .label elseLabel, .zsuper long, .label endLabel]) :
    Builds (BuildT.zsuper given) s h I Q := by
  unfold BuildT.zsuper
  refine Yields.lift_bind fun {args? _} hargs => Yields.lift_bind fun {result _} hresult => ?_
  obtain rfl := eq_of_forwardedArgs hargs
  have hresult := (takesTemp_of_temp hresult).toEmits
  -- without a method around there is nothing to forward, and the code raises
  cases args? with
  | none =>
    refine Yields.lift_bind fun hflags => Yields.lift_bind fun hraises => Yields.pure ?_
    obtain ⟨xs, hxs, hemits⟩ := emits_of_raiseError hraises
    have ht := (hresult.trans (emits_of_insertFlags hflags)).trans hemits
    refine ⟨xs, ht, hraise hargs hxs ht (hemits.flags _ ?_)⟩
    obtain rfl := runs_updateBuilder.mp hflags
    simp only [Builder.insertFlags, FlagSet.contains_union, Bool.or_eq_true]
    exact .inr rfl
  | some args =>
    refine Yields.lift_bind fun hscope => ?_
    obtain ⟨-, rfl⟩ := runs_ownScope.mp hscope
    simp only [liftM_registry]
    refine Yields.lift_bind fun {_ u} hrecord => ?_
    have hu := hresult.trans (emits_of_record hrecord)
    -- unless one hash of further keywords has to be tested, all is forwarded in one call
    have hall : ∀ {forward : List Operand → CallFlags → ZSuper},
        Yields (do
          BuildT.zsuper.forwardAll args fun os flags => .zsuper (forward os flags)
          return result) u h I fun a t k => ∃ xs, s.Emits t xs ∧ Q a t k xs := by
      intro forward
      refine Builds.andThen (builds_forwardAll (Q := fun _ _ k xs => k = h ∧
        ∃ call, xs = [.zsuper call]) fun _ => ⟨rfl, _, rfl⟩) ?_
      rintro _ t _ _ ht ⟨rfl, call, rfl⟩
      exact Yields.pure ⟨_, hu.trans ht, hforward hargs (hu.trans ht)⟩
    split
    · split
      · refine Yields.lift_bind fun {rest _} hrests => Yields.lift_bind fun hpositional => ?_
        simp only [deepened, runs_liftM_except] at hrests hpositional
        obtain ⟨-, rfl⟩ := hrests
        obtain ⟨-, rfl⟩ := hpositional
        refine Yields.lift_bind fun {test _} htest => Yields.lift_bind fun {_ w} hhelper => ?_
        have hhelper := (takesTemp_of_temp htest).toEmits.trans (emits_of_emit hhelper)
        refine Builds.andThen (builds_ifElse (Q := fun _ t k xs => k = h ∧
          ∃ elseLabel endLabel s₂ s₃ short long, w.MakesLabel s₂ "LBL" elseLabel ∧
            s₂.MakesLabel s₃ "LBL" endLabel ∧ s₃.Emits t xs ∧
            xs = [.branch .isFalse elseLabel test none, .zsuper short, .jump endLabel,
              .label elseLabel, .zsuper long, .label endLabel]) ?_) ?_
        · intro elseLabel endLabel s₁ s₂ s₃ helse hend hbranch
          refine Yields.lift fun hshort => ⟨_, emits_of_emit hshort, fun hjump => ?_⟩
          refine Yields.lift fun hlong => ⟨_, emits_of_emit hlong, fun hlabel => ⟨rfl, ?_⟩⟩
          have hs := ((hbranch.trans (emits_of_emit hshort)).trans hjump).trans
            ((emits_of_emit hlong).trans hlabel)
          exact ⟨elseLabel, endLabel, s₁, s₂, _, _, helse, hend, hs, rfl⟩
        · rintro _ t _ _ ht ⟨rfl, elseLabel, endLabel, s₂, s₃, short, long, helse, hend, hs, rfl⟩
          refine Yields.pure ⟨_, (hu.trans hhelper).trans ht, ?_⟩
          exact hrest hargs (hu.trans hhelper) helse hend hs
      · exact hall
    · exact hall

end ScopeIR.TrailM
