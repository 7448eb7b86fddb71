import ScopeIR.Proofs.Debts
import ScopeIR.Proofs.Forwarding

/-! What operations without bodies do with temporaries: each writes those that it takes, and none
but these, results of open loops and what the program hands it. A super call that is refused is the
one exception. -/

namespace ScopeIR.Session

variable {α : Type} {s t u : Session} {x : Scope} {owed : List Variable} {xs : List Instr}
  {l : Ledger} {v : Variable} {o : Operand}

theorem Fulfils.clears {owed' : List Variable} (h : s.Fulfils x owed t owed' xs {}) :
    s.Clears x owed t owed' := ⟨xs, h⟩

/-- A temporary that the program is told to see to, or that nobody writes. -/
theorem TakesNext.enters (hs : s.Minds x owed) (h : s.TakesNext x t v)
    (hl : v ∈ l.asked ∨ v ∈ l.refused) (hwritten : l.written = [])
    (hreturned : ∀ w ∈ l.returned, w = v) (hrefused : ∀ w ∈ l.refused, w = v) :
    s.Fulfils x owed t owed [] l := by
  have hfulfils : s.Fulfils x owed t (v :: owed) [] {} := h.fulfils
  refine hfulfils.emits.fulfils ?_
  have hspends : s.Spends x owed t owed [] ({} ++ l) := by
    refine hfulfils.spends.enter (fun _ => List.mem_cons_of_mem _) (fun _ => .inl) ?_ ?_ ?_ ?_
    · intro w hw
      rcases List.mem_cons.mp hw with rfl | hw
      · exact .inr (.inr hl)
      · exact .inl hw
    · intro w hw
      rw [hwritten] at hw
      exact absurd hw List.not_mem_nil
    · intro i hi
      have hi := hreturned _ hi
      exact (show s.Takes x t (x.temp i) from hi ▸ h.takes).lt
    · intro w hw
      obtain rfl := hrefused w hw
      refine ⟨h.takes, fun hmem => absurd hmem List.not_mem_nil, fun hheld => ?_⟩
      -- the builder holds what it held before
      obtain ⟨i, rfl, hi⟩ := h.var_eq
      rw [Holds, h.builder_eq] at hheld
      exact absurd (hs.holds hheld) (Nat.not_lt.mpr hi.ge)
  exact hspends

theorem clears_of_cond {target : Label} {value test : Operand} {v : Unit} (hs : s.Minds x owed)
    (h : s.Runs (cond target value test) v t) : s.Clears x owed t owed := by
  simp only [cond, runs_bind, runs_liftM_except] at h
  obtain ⟨i, _, ⟨hi, rfl⟩, h⟩ := h
  refine (fulfils_of_emit hs h ?_).clears
  cases hb : Instr.branchIf? value test target with
  | none =>
    rw [branchIf, hb] at hi
    cases hi
  | some j =>
    rw [branchIf, hb] at hi
    obtain rfl := Except.ok.inj hi
    rcases branchIf?_cases hb with rfl | rfl | ⟨_, rfl⟩ <;> rfl

theorem clears_of_condNe {target : Label} {value test : Operand} {v : Unit} (hs : s.Minds x owed)
    (h : s.Runs (condNe target value test) v t) : s.Clears x owed t owed := by
  refine (fulfils_of_emit hs h ?_).clears
  unfold Instr.branchUnlessEqual
  split <;> rfl

/-- A temporary among what is returned was taken. -/
def Answers (x : Scope) (s : Session) (owed : List Variable) (t : Session) (o : Operand) : Prop :=
  s.Clears x owed t owed ∧ ∀ i, x.temp i ∈ o.var?.toList → i.toNat < t.temps

theorem Clears.answers (hs : s.Minds x owed) (h : s.Clears x owed u owed)
    (h' : u.Answers x owed t o) : s.Answers x owed t o := ⟨h.trans hs h'.1, h'.2⟩

theorem answers_of_temp_emit {i : Instr} {v' : Unit} (hs : s.Minds x owed) (htemp : s.Runs temp v u)
    (h : u.Runs (emit i) v' t) (hi : i.result? = some v) : s.Answers x owed t v := by
  obtain ⟨htakes, ht⟩ := fulfils_of_temp_emit hs htemp h hi
  refine ⟨ht.clears, fun j hj => ?_⟩
  have hj := List.mem_singleton.mp (show x.temp j ∈ [v] from hj)
  exact (show s.Takes x t (x.temp j) from hj ▸ htakes).lt

theorem answers_of_searchConst {name : Symbol} (hs : s.Minds x owed)
    (h : s.Runs (searchConst name) o t) : s.Answers x owed t o := by
  simp only [searchConst, runs_bind, runs_pure] at h
  obtain ⟨r, u, hr, _, _, hemit, rfl, rfl⟩ := h
  exact answers_of_temp_emit hs hr hemit rfl

theorem answers_of_searchModuleConst {module : Operand} {name : Symbol} (hs : s.Minds x owed)
    (h : s.Runs (searchModuleConst module name) o t) : s.Answers x owed t o := by
  simp only [searchModuleConst, runs_bind, runs_pure] at h
  obtain ⟨r, u, hr, _, _, hemit, rfl, rfl⟩ := h
  exact answers_of_temp_emit hs hr hemit rfl

theorem answers_of_raiseError {className : Symbol} {message : Operand} (hs : s.Minds x owed)
    (h : s.Runs (raiseError className message) o t) : s.Answers x owed t o := by
  simp only [raiseError, plainCall, call, runs_bind, runs_ownScope, runs_pure] at h
  obtain ⟨c, s₁, hc, k, s₂, hk, r, s₃, hr, _, _, ⟨y, _, ⟨-, rfl⟩, _, _, hcall, rfl, rfl⟩, rfl,
    rfl⟩ := h
  obtain ⟨h₁, -⟩ := answers_of_searchModuleConst hs hc
  obtain ⟨h₂, -⟩ := answers_of_searchModuleConst (h₁.minds hs) hk
  have h₂ := h₁.trans hs h₂
  exact h₂.answers hs (answers_of_temp_emit (h₂.minds hs) hr hcall rfl)

theorem eq_of_isTopScope {top : Bool} (h : s.Runs isTopScope top t) : s = t := by
  simp only [isTopScope, runs_bind, runs_get, runs_current, runs_liftM_except, runs_pure] at h
  obtain ⟨_, _, ⟨rfl, rfl⟩, _, _, ⟨rfl, rfl⟩, _, _, ⟨-, rfl⟩, _, _, ⟨-, rfl⟩, _, _, ⟨-, rfl⟩, -,
    rfl⟩ := h
  rfl

theorem answers_of_classVarContainer {declares : Bool} (hs : s.Minds x owed)
    (h : s.Runs (classVarContainer declares) o t) : s.Answers x owed t o := by
  simp only [classVarContainer, runs_bind, runs_get, runs_current, runs_liftM_except] at h
  obtain ⟨_, _, ⟨rfl, rfl⟩, _, _, ⟨rfl, rfl⟩, chain, _, ⟨-, rfl⟩, h⟩ := h
  split at h
  · obtain ⟨rfl, rfl⟩ := runs_pure.mp h
    exact ⟨.refl hs, fun _ hi => absurd hi List.not_mem_nil⟩
  · simp only [runs_bind, runs_pure] at h
    obtain ⟨r, u, hr, _, _, hemit, rfl, rfl⟩ := h
    exact answers_of_temp_emit hs hr hemit rfl

theorem answers_of_getClassVar {name : Symbol} (hs : s.Minds x owed)
    (h : s.Runs (getClassVar name) o t) : s.Answers x owed t o := by
  obtain ⟨top, _, htop, h⟩ := runs_bind.mp h
  obtain rfl := eq_of_isTopScope htop
  split at h
  · exact answers_of_raiseError hs h
  · simp only [runs_bind, runs_pure] at h
    obtain ⟨_, s₁, hcontainer, r, u, hr, _, _, hemit, rfl, rfl⟩ := h
    have h₁ := (answers_of_classVarContainer hs hcontainer).1
    exact h₁.answers hs (answers_of_temp_emit (h₁.minds hs) hr hemit rfl)

/-- An assignment that raises returns what was taken for that. -/
theorem answers_of_putClassVar {declares : Bool} {name : Symbol} {value : Operand}
    (hs : s.Minds x owed) (h : s.Runs (putClassVar declares name value) o t) :
    s.Clears x owed t owed ∧ ((isTopScope s).1 = .ok true →
      ∀ i, x.temp i ∈ o.var?.toList → i.toNat < t.temps) := by
  obtain ⟨top, _, htop, h⟩ := runs_bind.mp h
  obtain rfl := eq_of_isTopScope htop
  split at h
  · exact (answers_of_raiseError hs h).imp_right fun h _ => h
  · next hnot =>
    simp only [runs_bind, runs_pure] at h
    obtain ⟨_, s₁, hcontainer, _, _, hemit, rfl, rfl⟩ := h
    have h₁ := (answers_of_classVarContainer hs hcontainer).1
    refine ⟨h₁.trans hs (fulfils_of_emit (h₁.minds hs) hemit rfl).clears, fun htrue => ?_⟩
    exact absurd (Except.ok.inj ((congrArg Prod.fst htop).symm.trans htrue)) hnot

section Exits

variable {value : Operand} {v : Unit}

theorem clears_of_breakWith (hs : s.Minds x owed) (h : s.Runs (breakWith value) v t) :
    s.Clears x owed t owed := by
  simp only [breakWith, runs_bind, runs_current] at h
  obtain ⟨_, _, ⟨rfl, rfl⟩, h⟩ := h
  split at h
  · next frame hframe =>
    simp only [runs_bind] at h
    obtain ⟨_, s₁, hcopies, _, s₂, hcopy, hjump⟩ := h
    have h₁ := clears_of_copyEnsures hs hcopies
    -- the loop is still open, so that its result is among what is held
    have hmem : frame ∈ s₁.builder.loops := h₁.loops ▸ List.mem_of_head? hframe
    have h₂ := pays_of_emit (h₁.minds hs) hcopy
      (fun j hj => .inr (.inl ⟨frame, hmem, Option.some.inj hj⟩)) (fun _ => id) fun _ => .inl
    have h₂ := h₁.trans hs h₂.clears
    exact h₂.trans hs (fulfils_of_emit (h₂.minds hs) hjump rfl).clears
  · simp only [runs_bind, runs_ownScope] at h
    obtain ⟨y, _, ⟨-, rfl⟩, h⟩ := h
    split at h
    · exact (fulfils_of_emit hs h rfl).clears
    · split at h
      · exact absurd h not_runs_escaping
      · exact absurd h not_runs_invalid

theorem clears_of_next (hs : s.Minds x owed) (h : s.Runs (BuildT.next value) v t) :
    s.Clears x owed t owed := by
  simp only [BuildT.next, liftM_self, runs_bind, runs_current] at h
  obtain ⟨_, _, ⟨rfl, rfl⟩, _, s₁, hcopies, h⟩ := h
  have h₁ := clears_of_copyEnsures hs hcopies
  split at h
  · exact h₁.trans hs (fulfils_of_emit (h₁.minds hs) h rfl).clears
  · simp only [runs_bind, runs_ownScope] at h
    obtain ⟨_, s₂, hpoll, y, _, ⟨-, rfl⟩, h⟩ := h
    have h₂ := h₁.trans hs (fulfils_of_emit (h₁.minds hs) hpoll rfl).clears
    split at h
    · exact h₂.trans hs (fulfils_of_emit (h₂.minds hs) h rfl).clears
    · split at h
      · exact absurd h not_runs_escaping
      · exact absurd h not_runs_invalid

theorem clears_of_closureStart {start : Label} (hs : s.Minds x owed)
    (h : s.Runs closureStart start t) : s.Clears x owed t owed := by
  obtain ⟨hemits, -⟩ := emits_of_closureStart h
  refine ((hemits.quiet ?_).fulfils hs hemits).clears
  obtain ⟨-, rfl⟩ | ⟨-, -, u, hstart, rfl⟩ := runs_closureStart h
  · exact ⟨rfl, rfl, rfl⟩
  · obtain ⟨-, rfl⟩ := runs_newClosureStart.mp hstart
    exact ⟨rfl, rfl, rfl⟩

theorem clears_of_redo (hs : s.Minds x owed) (h : s.Runs redo v t) : s.Clears x owed t owed := by
  simp only [redo, runs_bind, runs_current] at h
  obtain ⟨_, _, ⟨rfl, rfl⟩, h⟩ := h
  split at h
  · exact (fulfils_of_emit hs h rfl).clears
  · simp only [runs_bind, runs_ownScope] at h
    obtain ⟨y, _, ⟨-, rfl⟩, h⟩ := h
    split at h
    · simp only [runs_bind] at h
      obtain ⟨_, s₁, hpoll, start, s₂, hstart, hjump⟩ := h
      have h₁ := (fulfils_of_emit hs hpoll rfl).clears
      have h₂ := h₁.trans hs (clears_of_closureStart (h₁.minds hs) hstart)
      exact h₂.trans hs (fulfils_of_emit (h₂.minds hs) hjump rfl).clears
    · split at h
      · exact absurd h not_runs_escaping
      · exact absurd h not_runs_invalid

theorem clears_of_retry (hs : s.Minds x owed) (h : s.Runs retry v t) : s.Clears x owed t owed := by
  simp only [retry, runs_bind, runs_current] at h
  obtain ⟨_, _, ⟨rfl, rfl⟩, h⟩ := h
  split at h
  · exact absurd h not_runs_invalid
  · simp only [runs_bind] at h
    obtain ⟨_, s₁, hpoll, _, s₂, hput, _, s₃, hjump, hflags⟩ := h
    have h₁ := fulfils_of_emit hs hpoll rfl
    have h₂ := h₁.trans hs (fulfils_of_emit (h₁.minds hs) hput rfl)
    have h₃ := h₂.trans hs (fulfils_of_emit (h₂.minds hs) hjump rfl)
    exact (h₃.trans hs (fulfils_of_insertFlags (h₃.minds hs) hflags)).clears

theorem clears_of_returnWith (hs : s.Minds x owed) (h : s.Runs (returnWith value) v t) :
    s.Clears x owed t owed := by
  simp only [returnWith, runs_bind, runs_ownScope, runs_get, runs_liftM_except] at h
  obtain ⟨y, _, ⟨-, rfl⟩, _, _, ⟨rfl, rfl⟩, method, _, ⟨-, rfl⟩, h⟩ := h
  split at h
  · simp only [runs_bind] at h
    obtain ⟨_, s₁, hcheck, hreturn⟩ := h
    have h₁ := fulfils_of_emit hs hcheck rfl
    exact (h₁.trans hs (fulfils_of_emit (h₁.minds hs) hreturn rfl)).clears
  split at h
  · split at h
    · exact (fulfils_of_emit hs h rfl).clears
    · simp only [runs_bind, runs_pure] at h
      obtain ⟨_, _, hraise, -, rfl⟩ := h
      exact (answers_of_raiseError hs hraise).1
  simp only [runs_bind, runs_current] at h
  obtain ⟨_, _, ⟨rfl, rfl⟩, h⟩ := h
  split at h
  · exact (fulfils_of_emit hs h rfl).clears
  · simp only [runs_bind] at h
    obtain ⟨result, _, hresult, _, s₁, hcopy, _, s₂, hcopies, hret⟩ := h
    have h₁ := (fulfils_of_temp_emit hs hresult hcopy rfl).2.clears
    have h₂ := h₁.trans hs (clears_of_copyEnsures (h₁.minds hs) hcopies)
    exact h₂.trans hs (fulfils_of_emit (h₂.minds hs) hret rfl).clears

end Exits

theorem temps_yielding (s : Session) : s.yielding.temps = s.temps := by
  rw [temps, temps, (emits_yielding s).tempScope_eq]
  rfl

theorem minds_yielding (hs : s.Minds x owed) : s.yielding.Minds x owed :=
  ⟨hs.own, hs.borrowsTemps, hs.fullTrace, fun hi => temps_yielding s ▸ hs.holds hi⟩

/-- A new variable for the block is held from then on. -/
theorem spends_of_newBlock {u : Session} (hs : s.Minds x owed) (hnone : s.builder.yieldClosure = none)
    (htemp : s.yielding.Runs temp v u)
    (ht : t = { u with builder := { u.builder with yieldClosure := some v } }) :
    s.Spends x owed t owed [] {} ∧ s.Takes x t v := by
  have hnext := takesNext_of_temp (minds_yielding hs) htemp
  have habides : s.Abides t := by
    have hu : s.Abides u := ((emits_yielding s).trans hnext.toEmits).abides
    subst ht
    exact ⟨hu.registry, hu.outer, hu.scope, hu.borrowsTemps⟩
  have hyields : t.builder.yieldClosure = some v := by rw [ht]
  have hlast : t.temps = u.temps := by
    rw [temps, temps, habides.tempScope, hnext.tempScope_eq, (emits_yielding s).tempScope_eq, ht]
  have htakes : s.Takes x t v := by
    obtain ⟨i, hi, hlo, hhi⟩ := hnext.takes
    exact ⟨i, hi, temps_yielding s ▸ hlo, hlast ▸ hhi⟩
  refine ⟨⟨habides, ?_, fun _ => ?_, ?_, ?_, ?_, ?_, ?_, ?_, ?_, ?_⟩, htakes⟩
  · subst ht
    exact hnext.others
  · rw [hyields, ht]
    exact congrArg Builder.needsYieldBlock hnext.builder_eq
  · intro v hv
    rw [hnone] at hv
    cases hv
  · -- only the new variable was not held before
    rintro v' (hv | ⟨f, hf, hv⟩ | hv)
    · exact .inl (.inl hv)
    · rw [ht, show u.builder.loops = _ from congrArg Builder.loops hnext.builder_eq] at hf
      exact .inl (.inr (.inl ⟨f, hf, hv⟩))
    · rw [hyields] at hv
      exact .inr (Option.some.inj hv ▸ htakes)
  · exact fun hv => .inl hv
  · rintro _ ⟨i, rfl, hlo, hhi⟩
    rw [hyields, hnext.eq ⟨i, rfl, (temps_yielding s).symm ▸ hlo, hlast ▸ hhi⟩]
    exact .inr (.inr (.inr (.inr rfl)))
  all_goals exact fun hv => absurd hv List.not_mem_nil

/-- The variable for the block is taken once, and written when the scope is finished. -/
theorem answers_of_yieldClosureVar (hs : s.Minds x owed) (h : s.Runs yieldClosureVar v t) :
    s.Answers x owed t v := by
  have hemits := (emits_of_yieldClosureVar h).1
  obtain ⟨hsome, rfl⟩ | ⟨hnone, u, htemp, ht⟩ := runs_yieldClosureVar h
  · have hquiet : Quiet s s.yielding := by
      refine ⟨hemits.abides, Registry.takesNone_of_scopes rfl, fun _ => ?_, rfl, rfl⟩
      rw [show s.yielding.builder.yieldClosure = some v from hsome]
      rfl
    refine ⟨(hquiet.fulfils hs hemits).clears, fun i hi => ?_⟩
    have hi := List.mem_singleton.mp (show x.temp i ∈ [_] from hi)
    exact (hs.holds (.inr (.inr (hi ▸ hsome)))).trans_le hemits.temps_le
  · obtain ⟨hspends, htakes⟩ := spends_of_newBlock hs hnone htemp ht
    refine ⟨(hemits.fulfils hspends).clears, fun i hi => ?_⟩
    have hi := List.mem_singleton.mp (show x.temp i ∈ [v] from hi)
    exact (hi ▸ htakes : s.Takes x _ (x.temp i)).lt

/-- One of the two calls is made. -/
theorem fulfils_of_ifElse {owed : List Variable} {test : Operand} {yes no : Instr} {v : Unit}
    {r : Variable} (hs : s.Minds x (r :: owed))
    (h : s.Runs (BuildT.ifElse test (.boolean true) (emit yes) (emit no)) v t)
    (hyes : yes.result? = some r) (hno : no.result? = some r) : s.Clears x (r :: owed) t owed := by
  simp only [BuildT.ifElse, liftM_self, runs_bind] at h
  obtain ⟨elseLabel, s₁, helse, endLabel, s₂, hend, _, s₃, hbranch, _, s₄, hyes', _, s₅, hjump, _,
    s₆, hlabel, _, s₇, hno', hafter⟩ := h
  have h₁ := (fulfils_of_newLabel hs helse).clears
  have h₂ := h₁.trans hs (fulfils_of_newLabel (h₁.minds hs) hend).clears
  have h₃ := h₂.trans hs (clears_of_condNe (h₂.minds hs) hbranch)
  -- the result is owed until the second arm has written it as well
  have h₄ := h₃.trans hs (pays_of_emit (h₃.minds hs) hyes' (fun j hj => .inl (by
    rw [← Option.some.inj (hyes.symm.trans hj)]
    exact List.mem_cons_self)) (fun _ => id) fun _ => .inl).clears
  have h₅ := h₄.trans hs (fulfils_of_emit (h₄.minds hs) hjump rfl).clears
  have h₆ := h₅.trans hs (fulfils_of_emit (h₅.minds hs) hlabel rfl).clears
  have h₇ := h₆.trans hs (fulfils_of_result (h₆.minds hs) hno' hno).clears
  exact h₇.trans hs (fulfils_of_emit (h₇.minds hs) hafter rfl).clears

section Forwarding

variable {owed : List Variable} {block : Operand} {v r : Variable}

theorem clears_of_forwardAll {args : ForwardedArgs} {forward : List Operand → CallFlags → Instr}
    {v : Unit} (hs : s.Minds x (r :: owed)) (hr : ∀ os flags, (forward os flags).result? = some r)
    (h : s.Runs (BuildT.zsuper.forwardAll args forward) v t) : s.Clears x (r :: owed) t owed := by
  unfold BuildT.zsuper.forwardAll at h
  obtain ⟨os, u, hdeepen, hemit⟩ := runs_bind.mp h
  obtain ⟨-, rfl⟩ := runs_of_deepened hdeepen
  exact (fulfils_of_result hs (show s.Runs (emit _) v t from hemit) (hr ..)).clears

theorem fulfils_of_zsuper (hs : s.Minds x owed) (h : s.Runs (BuildT.zsuper block) v t) :
    ∃ xs, s.Fulfils x owed t owed xs
      { returned := [v], refused := if (Act.zsuper block).refuses s then [v] else [] } := by
  simp only [BuildT.zsuper, liftM_self, runs_bind] at h
  obtain ⟨args?, _, hargs, r, u, hr, h⟩ := h
  obtain rfl := eq_of_forwardedArgs hargs
  replace hargs : forwardedArgs? s = (.ok args?, s) := hargs
  cases args? with
  | none =>
    have hrefuses : (Act.zsuper block).refuses s = true := by rw [Act.refuses, hargs]
    simp only [runs_bind, runs_pure] at h
    obtain ⟨_, s₁, hflags, _, _, hraise, rfl, rfl⟩ := h
    rw [if_pos hrefuses]
    -- the temporary is taken before the call is refused, and no instruction writes it
    have hu : s.Fulfils x owed u owed [] { returned := [v], refused := [v] } :=
      (takesNext_of_temp hs hr).enters hs (.inr List.mem_cons_self) rfl
        (fun _ hw => List.mem_singleton.mp hw) fun _ hw => List.mem_singleton.mp hw
    have h₁ := fulfils_of_insertFlags (hu.minds hs) hflags
    obtain ⟨xs, h₂⟩ := (answers_of_raiseError (h₁.minds (hu.minds hs)) hraise).1
    have ht := hu.trans hs (h₁.trans (hu.minds hs) h₂)
    rw [Ledger.empty_append, Ledger.append_empty] at ht
    exact ⟨_, ht⟩
  | some args =>
    have hrefuses : (Act.zsuper block).refuses s = false := by rw [Act.refuses, hargs]
    rw [hrefuses, if_neg Bool.false_ne_true]
    have hnext := takesNext_of_temp hs hr
    have hu : s.Clears x owed u (r :: owed) := hnext.fulfils.clears
    simp only [runs_bind, runs_ownScope] at h
    obtain ⟨y, _, ⟨-, rfl⟩, _, s₁, hrecord, h⟩ := h
    have h₁ := hu.trans hs (fulfils_of_record (hu.minds hs) hrecord).clears
    suffices hall : v = r ∧ s₁.Clears x (r :: owed) t owed by
      obtain ⟨rfl, h₂⟩ := hall
      refine (h₁.trans hs h₂).returning fun i hi => ?_
      have hi := List.mem_singleton.mp hi
      have htakes := (hi ▸ hnext.takes : s.Takes x u (x.temp i))
      exact htakes.lt.trans_le ((fulfils_of_record (hu.minds hs) hrecord).clears.temps_le.trans
        h₂.temps_le)
    have hforward {forward : List Operand → CallFlags → Instr}
        (hresult : ∀ os flags, (forward os flags).result? = some r)
        (h : s₁.Runs (do
          BuildT.zsuper.forwardAll args forward
          return r) v t) : v = r ∧ s₁.Clears x (r :: owed) t owed := by
      obtain ⟨_, _, hforward, h⟩ := runs_bind.mp h
      obtain ⟨rfl, rfl⟩ := runs_pure.mp h
      exact ⟨rfl, clears_of_forwardAll (h₁.minds hs) hresult hforward⟩
    split at h
    · split at h
      · simp only [runs_bind, runs_pure] at h
        obtain ⟨rest, _, hrest, positional, _, hpositional, test, s₂, htest, _, s₃, hhelper, _, _,
          hcalls, rfl, rfl⟩ := h
        obtain ⟨-, rfl⟩ := runs_of_deepened hrest
        obtain ⟨-, rfl⟩ := runs_of_deepened hpositional
        have h₃ := (fulfils_of_temp_emit (h₁.minds hs) htest hhelper rfl).2.clears
        exact ⟨rfl, h₃.trans (h₁.minds hs)
          (fulfils_of_ifElse (h₃.minds (h₁.minds hs)) hcalls rfl rfl)⟩
      · exact hforward (fun _ _ => rfl) h
    · exact hforward (fun _ _ => rfl) h

end Forwarding

/-- What an operation takes it writes, or enters. -/
theorem Request.fulfils {r : Request α} {a : α} (hs : s.Minds x owed) (h : s.Runs r.run a t) :
    ∃ xs, s.Fulfils x owed t owed xs (r.entry s a) := by
  cases r with
  | look =>
    obtain ⟨_, _, hget, hpure⟩ := runs_bind.mp h
    obtain ⟨rfl, rfl⟩ := runs_get.mp hget
    obtain ⟨-, rfl⟩ := runs_pure.mp hpure
    exact Clears.refl hs
  | note => exact ⟨_, fulfils_of_noteLine hs h⟩
  | insertFlags => exact ⟨_, fulfils_of_insertFlags hs h⟩
  | newLabel => exact ⟨_, fulfils_of_newLabelNamed hs h⟩
  | temp =>
    exact ⟨_, (takesNext_of_temp hs h).enters hs (.inl List.mem_cons_self) rfl
      (fun _ hw => List.mem_singleton.mp hw) fun _ hw => absurd hw List.not_mem_nil⟩
  | yieldClosureVar =>
    obtain ⟨ht, htaken⟩ := answers_of_yieldClosureVar hs h
    exact ht.returning htaken
  | emit => exact ⟨_, fulfils_of_own hs h⟩
  | cond => exact clears_of_cond hs h
  | condNe => exact clears_of_condNe hs h
  | call =>
    simp only [Request.run, call, runs_bind, runs_ownScope, runs_pure] at h
    obtain ⟨y, _, ⟨-, rfl⟩, _, _, hemit, -, rfl⟩ := h
    exact ⟨_, fulfils_of_own hs hemit⟩
  | renameMethod =>
    simp only [Request.run, renameMethod, runs_bind, runs_pure] at h
    obtain ⟨_, _, hemit, -, rfl⟩ := h
    exact ⟨_, fulfils_of_emit hs hemit rfl⟩
  | searchConst =>
    obtain ⟨ht, htaken⟩ := answers_of_searchConst hs h
    exact ht.returning htaken
  | searchModuleConst =>
    obtain ⟨ht, htaken⟩ := answers_of_searchModuleConst hs h
    exact ht.returning htaken
  | raiseError =>
    obtain ⟨ht, htaken⟩ := answers_of_raiseError hs h
    exact ht.returning htaken
  | classVarContainer =>
    obtain ⟨ht, htaken⟩ := answers_of_classVarContainer hs h
    exact ht.returning htaken
  | getClassVar =>
    obtain ⟨ht, htaken⟩ := answers_of_getClassVar hs h
    exact ht.returning htaken
  | putClassVar declares name value =>
    obtain ⟨ht, htaken⟩ := answers_of_putClassVar hs h
    refine ht.returning fun i hi => ?_
    split at hi
    · next htop => exact htaken htop i hi
    · exact absurd hi List.not_mem_nil
  | «break» => exact clears_of_breakWith hs h
  | next => exact clears_of_next hs h
  | redo => exact clears_of_redo hs h
  | retry => exact clears_of_retry hs h
  | «return» => exact clears_of_returnWith hs h
  | zsuper => exact fulfils_of_zsuper hs h

end ScopeIR.Session
