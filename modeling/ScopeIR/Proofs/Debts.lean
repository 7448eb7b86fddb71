import ScopeIR.Proofs.CarriedValues
import ScopeIR.Proofs.Spending

/-! The single steps of building, and copies of ensure bodies, by what they spend: a temporary that is
taken is owed until an instruction writes it. -/

namespace ScopeIR.Session

variable {α : Type} {s t u : Session} {x : Scope} {owed owed₁ owed₂ : List Variable}
  {xs ys : List Instr} {l l' : Ledger} {v w : Variable} {i : Instr}

/-- `xs` is added to the list at work, and writes the temporaries that are spent. -/
structure Fills (x : Scope) (s : Session) (owed : List Variable) (t : Session)
    (owed' : List Variable) (xs : List Instr) (l : Ledger) : Prop where
  adds : s.Adds t xs
  spends : s.Spends x owed t owed' (results xs) l

/-- The same constructs are open as before. -/
structure Fulfils (x : Scope) (s : Session) (owed : List Variable) (t : Session)
    (owed' : List Variable) (xs : List Instr) (l : Ledger) : Prop
    extends s.Fills x owed t owed' xs l where
  sameStacks : s.builder.SameStacks t.builder

theorem Fills.minds (h : s.Fills x owed t owed₁ xs l) (hs : s.Minds x owed) : t.Minds x owed₁ :=
  h.spends.minds hs

theorem Fills.trans (hs : s.Minds x owed) (h : s.Fills x owed t owed₁ xs l)
    (h' : t.Fills x owed₁ u owed₂ ys l') : s.Fills x owed u owed₂ (xs ++ ys) (l ++ l') where
  adds := h.adds.trans h'.adds
  spends := results_append xs ys ▸ h.spends.trans hs h'.spends

theorem Fulfils.trans (hs : s.Minds x owed) (h : s.Fulfils x owed t owed₁ xs l)
    (h' : t.Fulfils x owed₁ u owed₂ ys l') : s.Fulfils x owed u owed₂ (xs ++ ys) (l ++ l') where
  toFills := h.toFills.trans hs h'.toFills
  sameStacks := h.sameStacks.trans h'.sameStacks

theorem Fulfils.emits (h : s.Fulfils x owed t owed₁ xs l) : s.Emits t xs :=
  ⟨h.adds, h.sameStacks⟩

theorem Emits.fulfils (h : s.Emits t xs) (hspends : s.Spends x owed t owed₁ (results xs) l) :
    s.Fulfils x owed t owed₁ xs l :=
  ⟨⟨h.toAdds, hspends⟩, h.sameStacks⟩

/-- Nothing is taken, and the builder still writes what it would have. -/
structure Quiet (s t : Session) : Prop extends s.Abides t where
  takes : s.registry.TakesNone t.registry
  needs : s.builder.needsYieldBlock = s.builder.yieldClosure.isSome →
    t.builder.needsYieldBlock = t.builder.yieldClosure.isSome
  yieldClosure : t.builder.yieldClosure = s.builder.yieldClosure
  loops : t.builder.loops = s.builder.loops

namespace Quiet

theorem temps_eq (h : s.Quiet t) (hs : s.Minds x owed) : t.temps = s.temps := by
  obtain ⟨y, hy, -⟩ := hs.own
  rw [temps, temps, h.tempScope, hs.tempScope, h.takes _ y hy]

theorem holds (h : s.Quiet t) : t.Holds owed v ↔ s.Holds owed v := by
  rw [Holds, Holds, h.loops, h.yieldClosure]

/-- What is written meanwhile is what the program writes, or what the builder still had to. -/
theorem spends (h : s.Quiet t) (hs : s.Minds x owed) {vs ws : List Variable}
    (hsub : ∀ v ∈ owed₁, v ∈ owed) (hpaid : ∀ v ∈ owed, v ∈ owed₁ ∨ v ∈ vs)
    (hknown : ∀ j, x.temp j ∈ vs → x.temp j ∈ ws ∨ s.Holds owed (x.temp j))
    (hwritten : ∀ v ∈ ws, v ∈ vs) : s.Spends x owed t owed₁ vs { written := ws } where
  toAbides := h.toAbides
  others := h.takes.takesFrom
  needs := h.needs
  yields hv := h.yieldClosure.trans hv
  held hv := .inl (h.holds.mp (hv.mono hsub))
  paid := hpaid _
  filled hv := by
    obtain ⟨i, -, hlo, hhi⟩ := hv
    rw [h.temps_eq hs] at hhi
    exact absurd hhi (Nat.not_lt.mpr hlo)
  known hv := .inr (hknown _ hv)
  written := hwritten _
  returned hv := absurd hv List.not_mem_nil
  refused hv := absurd hv List.not_mem_nil

theorem fulfils (h : s.Quiet t) (hs : s.Minds x owed) (hemits : s.Emits t []) :
    s.Fulfils x owed t owed [] {} :=
  hemits.fulfils (h.spends hs (fun _ => id) (fun _ => .inl) (fun _ hv => absurd hv List.not_mem_nil)
    fun _ => id)

end Quiet

section Writing

/-- The scopes and the block that is to be loaded are as they were. -/
structure SameScopes (s t : Session) : Prop where
  scopes : t.registry.scopes = s.registry.scopes
  needs : t.builder.needsYieldBlock = s.builder.needsYieldBlock
  yieldClosure : t.builder.yieldClosure = s.builder.yieldClosure

theorem SameScopes.trans (h : s.SameScopes t) (h' : t.SameScopes u) : s.SameScopes u :=
  ⟨h'.scopes.trans h.scopes, h'.needs.trans h.needs, h'.yieldClosure.trans h.yieldClosure⟩

theorem Emits.quiet (h : s.Emits t xs) (hsame : s.SameScopes t) : s.Quiet t :=
  ⟨h.abides, Registry.takesNone_of_scopes hsame.scopes,
    fun hn => by rw [hsame.needs, hsame.yieldClosure, hn], hsame.yieldClosure,
    h.sameStacks.loops⟩

theorem sameScopes_of_flushLine {v : Unit} (h : s.Runs flushLine v t)
    (hs : s.registry.config.fullTrace = false) : s.SameScopes t := by
  cases flushing_of_flushLine h with
  | idle | plain => exact ⟨rfl, rfl, rfl⟩
  | traced _ htraces =>
    rw [hs] at htraces
    cases htraces

theorem sameScopes_of_emit {v : Unit} (h : s.Runs (emit i) v t)
    (hs : s.registry.config.fullTrace = false) : s.SameScopes t := by
  cases hbodies : s.builder.ensureBodies with
  | cons =>
    obtain rfl := (runs_emit_body hbodies).mp h
    exact ⟨rfl, rfl, rfl⟩
  | nil =>
    obtain ⟨u, hflush, rfl⟩ := (runs_emit_list hbodies).mp h
    exact (sameScopes_of_flushLine hflush hs).trans ⟨rfl, rfl, rfl⟩

/-- An instruction of the builder's own pays what it writes. -/
theorem pays_of_emit {v : Unit} (hs : s.Minds x owed) (h : s.Runs (emit i) v t)
    (hknown : ∀ j, i.result? = some (x.temp j) → s.Holds owed (x.temp j))
    (hsub : ∀ v ∈ owed₁, v ∈ owed) (hpaid : ∀ v ∈ owed, v ∈ owed₁ ∨ i.result? = some v) :
    s.Fulfils x owed t owed₁ [i] {} := by
  have hemits := emits_of_emit h
  have hresults : ∀ w, w ∈ results [i] ↔ i.result? = some w := by
    intro w
    simp only [mem_results, List.mem_singleton, exists_eq_left]
  refine hemits.fulfils ((hemits.quiet (sameScopes_of_emit h hs.fullTrace)).spends hs hsub ?_ ?_
    fun _ hv => absurd hv List.not_mem_nil)
  · exact fun w hw => (hpaid w hw).imp_right (hresults w).mpr
  · exact fun j hj => .inr (hknown j ((hresults _).mp hj))

/-- An instruction without a result. -/
theorem fulfils_of_emit {v : Unit} (hs : s.Minds x owed) (h : s.Runs (emit i) v t)
    (hi : i.result? = none) : s.Fulfils x owed t owed [i] {} :=
  pays_of_emit hs h (fun _ hj => by rw [hi] at hj; cases hj) (fun _ => id) fun _ => .inl

/-- An instruction of the program. -/
theorem fulfils_of_own {v : Unit} (hs : s.Minds x owed) (h : s.Runs (emit i) v t) :
    s.Fulfils x owed t owed [i] { written := i.result?.toList } := by
  have hemits := emits_of_emit h
  have hresults : results [i] = i.result?.toList := by
    rw [results_cons, results_nil, List.append_nil]
  refine hemits.fulfils ((hemits.quiet (sameScopes_of_emit h hs.fullTrace)).spends hs (fun _ => id)
    (fun _ => .inl) (fun j hj => .inl ?_) fun w hw => ?_)
  · rwa [hresults] at hj
  · rwa [hresults]

end Writing

section Taking

theorem fulfils_of_registry {g : Registry} (hs : s.Minds x owed) (hg : s.registry.GrowsTo g)
    (hnone : s.registry.TakesNone g) : s.Fulfils x owed { s with registry := g } owed [] {} :=
  Quiet.fulfils ⟨⟨hg, rfl, rfl, rfl⟩, hnone, id, rfl, rfl⟩ hs (.of_registry hg)

theorem fulfils_of_newLabelNamed {stem : String} {label : Label} (hs : s.Minds x owed)
    (h : s.Runs (newLabelNamed stem) label t) : s.Fulfils x owed t owed [] {} := by
  obtain ⟨g, hg, rfl⟩ := runs_newLabelNamed.mp h
  refine fulfils_of_registry hs (Registry.runs_newLabel hg).1 ?_
  obtain ⟨y, next, hy, -, -, rfl⟩ := Registry.eq_of_newLabel hg
  exact Registry.takesNone_setScope hy rfl

theorem fulfils_of_newLabel {label : Label} (hs : s.Minds x owed) (h : s.Runs newLabel label t) :
    s.Fulfils x owed t owed [] {} := fulfils_of_newLabelNamed hs h

theorem fulfils_of_record {e : Event} {v : Unit} (hs : s.Minds x owed)
    (h : s.Runs (liftM (RegistryM.record e)) v t) : s.Fulfils x owed t owed [] {} := by
  obtain ⟨g, hg, rfl⟩ := runs_liftM.mp h
  refine fulfils_of_registry hs (Registry.growsTo_of_record hg) ?_
  obtain rfl := Registry.runs_record.mp hg
  exact Registry.takesNone_of_scopes rfl

theorem fulfils_of_addClosure {closure : ScopeId} {v : Unit} (hs : s.Minds x owed)
    (h : s.Runs (addClosure closure) v t) : s.Fulfils x owed t owed [] {} := by
  obtain ⟨g, hg, rfl⟩ := runs_addClosure.mp h
  refine fulfils_of_registry hs (Registry.growsTo_of_addClosure hg) ?_
  obtain ⟨y, hy, rfl⟩ := Registry.runs_updateScope.mp hg
  refine Registry.takesNone_setScope hy ?_
  split <;> rfl

theorem fulfils_of_insertFlags {flags : ScopeFlags} {v : Unit} (hs : s.Minds x owed)
    (h : s.Runs (insertFlags flags) v t) : s.Fulfils x owed t owed [] {} := by
  have hemits := emits_of_insertFlags h
  obtain rfl := runs_updateBuilder.mp h
  exact (hemits.quiet ⟨rfl, rfl, rfl⟩).fulfils hs hemits

theorem fulfils_of_noteLine {line : Int32} {v : Unit} (hs : s.Minds x owed)
    (h : s.Runs (noteLine line) v t) : s.Fulfils x owed t owed [] {} := by
  have hemits := emits_of_noteLine h
  obtain rfl := runs_updateBuilder.mp h
  exact (hemits.quiet ⟨rfl, rfl, rfl⟩).fulfils hs hemits

/-- A temporary is the next one of the scope at work. -/
structure TakesNext (x : Scope) (s t : Session) (v : Variable) : Prop extends s.Emits t [] where
  var_eq : ∃ i, v = x.temp i ∧ i.toNat = s.temps
  temps_eq : t.temps = s.temps + 1
  builder_eq : t.builder = s.builder
  others : s.registry.TakesFrom s.builder.scope t.registry

theorem takesNext_of_temp (hs : s.Minds x owed) (h : s.Runs temp v t) : s.TakesNext x t v := by
  have hemits := (takesTemp_of_temp h).toEmits
  have hbuilder := builder_of_temp h
  obtain ⟨n, _, z, hn, hz, rfl, rfl⟩ := runs_temp h
  obtain ⟨y, hy, hxy⟩ := hs.own
  rw [← hs.tempScope] at hy
  obtain ⟨w, next, hw, hnext, rfl, rfl⟩ := Registry.eq_of_nextTemp hn
  obtain rfl := Option.some.inj (hw.symm.trans hy)
  obtain rfl := Option.some.inj ((Registry.scope?_setScope_self hw).symm.trans hz)
  refine ⟨hemits, ⟨w.nextTemp, ?_, ?_⟩, ?_, hbuilder, hs.tempScope ▸ Registry.takesFrom_setScope⟩
  · exact congrFun hxy.temp_eq w.nextTemp
  · rw [temps, Registry.temps_of_scope? hw]
  · rw [temps, hemits.tempScope_eq, temps, Registry.temps_of_scope? hw,
      Registry.temps_of_scope? (Registry.scope?_setScope_self hw), hnext]

theorem TakesNext.takes (h : s.TakesNext x t v) : s.Takes x t v := by
  obtain ⟨i, hv, hi⟩ := h.var_eq
  exact ⟨i, hv, hi.ge, by rw [h.temps_eq, hi]; exact Nat.lt_succ_self _⟩

theorem TakesNext.eq (h : s.TakesNext x t v) (hw : s.Takes x t w) : w = v := by
  obtain ⟨i, rfl, hi⟩ := h.var_eq
  obtain ⟨j, rfl, hlo, hhi⟩ := hw
  rw [h.temps_eq] at hhi
  rw [UInt64.toNat_inj.mp (show j.toNat = i.toNat by omega)]

/-- What was taken is owed. -/
theorem TakesNext.fulfils (h : s.TakesNext x t v) : s.Fulfils x owed t (v :: owed) [] {} := by
  refine h.toEmits.fulfils ⟨h.toEmits.abides, h.others, ?_, ?_, ?_, ?_, ?_, ?_, ?_, ?_, ?_⟩
  · rw [h.builder_eq]
    exact id
  · intro w hw
    rwa [h.builder_eq]
  · intro w hw
    rcases hw with hw | hw
    · rcases List.mem_cons.mp hw with rfl | hw
      · exact .inr h.takes
      · exact .inl (.inl hw)
    · rw [h.builder_eq] at hw
      exact .inl (.inr hw)
  · exact fun hw => .inl (List.mem_cons_of_mem _ hw)
  · exact fun hw => .inr (.inl (List.mem_cons.mpr (.inl (h.eq hw))))
  all_goals exact fun hw => absurd hw List.not_mem_nil

theorem fulfils_of_temp (hs : s.Minds x owed) (h : s.Runs temp v t) :
    s.Fulfils x owed t (v :: owed) [] {} := (takesNext_of_temp hs h).fulfils

/-- The last debt is paid by an instruction that writes it. -/
theorem fulfils_of_result {v' : Unit} (hs : s.Minds x (v :: owed)) (h : s.Runs (emit i) v' t)
    (hi : i.result? = some v) : s.Fulfils x (v :: owed) t owed [i] {} := by
  refine pays_of_emit hs h (fun j hj => .inl ?_) (fun _ => List.mem_cons_of_mem _) fun w hw => ?_
  · rw [Option.some.inj (hj.symm.trans hi)]
    exact List.mem_cons_self
  · rcases List.mem_cons.mp hw with rfl | hw
    · exact .inr hi
    · exact .inl hw

/-- A temporary that is taken for the result of the next instruction. -/
theorem fulfils_of_temp_emit {v' : Unit} (hs : s.Minds x owed) (htemp : s.Runs temp v u)
    (h : u.Runs (emit i) v' t) (hi : i.result? = some v) :
    s.Takes x t v ∧ s.Fulfils x owed t owed [i] {} := by
  have hnext := takesNext_of_temp hs htemp
  have hu : s.Fulfils x owed u (v :: owed) [] {} := hnext.fulfils
  have ht := fulfils_of_result (hu.minds hs) h hi
  exact ⟨hnext.takes.left ht.spends.toAbides.temps_le, hu.trans hs ht⟩

end Taking

/-- Debts are dropped that were paid. -/
theorem Fulfils.pays (h : s.Fulfils x owed t owed₁ xs l) (hsub : ∀ v ∈ owed₂, v ∈ owed₁)
    (hpaid : ∀ v ∈ owed, v ∈ owed₂ ∨ v ∈ results xs)
    (hleft : ∀ v ∈ owed₁, v ∈ owed₂ ∨ v ∈ results xs) : s.Fulfils x owed t owed₂ xs l := by
  have hspends : s.Spends x owed t owed₂ (results xs) (l ++ {}) :=
    h.spends.enter hsub hpaid (fun v hv => (hleft v hv).imp_right .inl)
      (fun _ hv => absurd hv List.not_mem_nil) (fun _ hv => absurd hv List.not_mem_nil)
      fun _ hv => absurd hv List.not_mem_nil
  rw [Ledger.append_empty] at hspends
  exact h.emits.fulfils hspends

/-- Nothing is entered in the ledger. -/
def Clears (x : Scope) (s : Session) (owed : List Variable) (t : Session)
    (owed' : List Variable) : Prop := ∃ xs, s.Fulfils x owed t owed' xs {}

namespace Clears

theorem minds (h : s.Clears x owed t owed₁) (hs : s.Minds x owed) : t.Minds x owed₁ := by
  obtain ⟨xs, h⟩ := h
  exact h.minds hs

theorem temps_le (h : s.Clears x owed t owed₁) : s.temps ≤ t.temps := by
  obtain ⟨xs, h⟩ := h
  exact h.spends.toAbides.temps_le

theorem refl (hs : s.Minds x owed) : s.Clears x owed s owed :=
  ⟨[], fulfils_of_registry hs (.refl _) (Registry.takesNone_of_scopes rfl)⟩

theorem trans (hs : s.Minds x owed) (h : s.Clears x owed t owed₁) (h' : t.Clears x owed₁ u owed₂) :
    s.Clears x owed u owed₂ := by
  obtain ⟨xs, h⟩ := h
  obtain ⟨ys, h'⟩ := h'
  exact ⟨xs ++ ys, h.trans hs h'⟩

theorem loops (h : s.Clears x owed t owed₁) : t.builder.loops = s.builder.loops := by
  obtain ⟨xs, h⟩ := h
  exact h.sameStacks.loops

/-- What was taken may be returned. -/
theorem returning (h : s.Clears x owed t owed) {vs : List Variable}
    (hvs : ∀ i, x.temp i ∈ vs → i.toNat < t.temps) :
    ∃ xs, s.Fulfils x owed t owed xs { returned := vs } := by
  obtain ⟨xs, h⟩ := h
  have hspends : s.Spends x owed t owed (results xs) ({} ++ { returned := vs }) :=
    h.spends.enter (fun _ => id) (fun _ => .inl) (fun _ => .inl)
      (fun _ hv => absurd hv List.not_mem_nil) hvs fun _ hv => absurd hv List.not_mem_nil
  exact ⟨xs, h.emits.fulfils hspends⟩

end Clears

section Copying

variable {news news' : List Variable} {ρ ρ' : Renaming} {frame : EnsureFrame}

/-- The new names for temporaries. -/
def IsImage (ρ : Renaming) (news : List Variable) : Prop :=
  ∀ v, v ∈ news ↔ ∃ w, ρ.hasVar w ∧ ρ.var w = v

theorem isImage_insertVar (hρ : IsImage ρ news) (hv : ρ.hasVar v = false) :
    IsImage (ρ.insertVar v w) (w :: news) := by
  have hhas : ∀ a, (ρ.insertVar v w).hasVar a ↔ a = v ∨ ρ.hasVar a := by
    intro a
    by_cases he : a = v
    · simp only [he, Renaming.hasVar, Renaming.insertVar, List.lookup_cons_self, Option.isSome_some,
        true_or]
    · have hb : (a == v) = false := beq_false_of_ne he
      simp only [he, Renaming.hasVar, Renaming.insertVar, List.lookup_cons, hb, false_or]
  intro b
  rw [List.mem_cons, hρ b]
  constructor
  · rintro (rfl | ⟨a, ha, rfl⟩)
    · exact ⟨v, (hhas v).mpr (.inl rfl), Renaming.var_insertVar_self⟩
    · refine ⟨a, (hhas a).mpr (.inr ha), Renaming.var_insertVar_ne ?_⟩
      rintro rfl
      rw [hv] at ha
      cases ha
  · rintro ⟨a, ha, rfl⟩
    by_cases he : a = v
    · exact .inl (he ▸ Renaming.var_insertVar_self)
    · rw [Renaming.var_insertVar_ne he]
      exact .inr ⟨a, ((hhas a).mp ha).resolve_left he, rfl⟩

/-- A new name is owed. -/
theorem clears_of_freshen (hs : s.Minds x (news ++ owed)) (hρ : IsImage ρ news)
    (h : s.Runs (freshen ρ i) ρ' t) :
    ∃ news', IsImage ρ' news' ∧ s.Clears x (news ++ owed) t (news' ++ owed) := by
  simp only [freshen] at h
  split at h
  · simp only [runs_bind, runs_pure, Instr.result?] at h
    obtain ⟨m, _, hm, _, _, ⟨rfl, rfl⟩, rfl, rfl⟩ := h
    exact ⟨news, hρ, [], fulfils_of_newLabel hs hm⟩
  obtain ⟨_, _, hpure, h⟩ := runs_bind.mp h
  obtain ⟨rfl, rfl⟩ := runs_pure.mp hpure
  split at h
  · split at h
    · next hnew =>
      simp only [Bool.and_eq_true, Bool.not_eq_true'] at hnew
      simp only [runs_bind, runs_pure] at h
      obtain ⟨w, _, hw, rfl, rfl⟩ := h
      exact ⟨w :: news, isImage_insertVar hρ hnew.2, [], fulfils_of_temp hs hw⟩
    · obtain ⟨rfl, rfl⟩ := runs_pure.mp h
      exact ⟨news, hρ, .refl hs⟩
  · obtain ⟨rfl, rfl⟩ := runs_pure.mp h
    exact ⟨news, hρ, .refl hs⟩

theorem clears_of_foldlM_freshen (hs : s.Minds x (news ++ owed)) (hρ : IsImage ρ news)
    (h : s.Runs (xs.foldlM freshen ρ) ρ' t) :
    ∃ news', IsImage ρ' news' ∧ s.Clears x (news ++ owed) t (news' ++ owed) := by
  induction xs generalizing ρ s news with
  | nil =>
    obtain ⟨rfl, rfl⟩ := runs_pure.mp h
    exact ⟨news, hρ, .refl hs⟩
  | cons i xs ih =>
    obtain ⟨σ, u, hi, hxs⟩ := runs_bind.mp h
    obtain ⟨news₁, hσ, hu⟩ := clears_of_freshen hs hρ hi
    obtain ⟨news₂, hρ', ht⟩ := ih (hu.minds hs) hσ hxs
    exact ⟨news₂, hρ', hu.trans hs ht⟩

theorem fulfils_of_forIn {g : Instr → Instr} {f : Instr → SessionM (ForInStep PUnit)} {v : Unit}
    (hf : ∀ {s t : Session} {i : Instr} {r : ForInStep PUnit}, i ∈ xs → s.Minds x owed →
      s.Runs (f i) r t → r = .yield ⟨⟩ ∧ s.Fulfils x owed t owed [g i] {})
    (hs : s.Minds x owed) (h : s.Runs (forIn xs PUnit.unit fun i _ => f i) v t) :
    s.Fulfils x owed t owed (xs.map g) {} := by
  induction xs generalizing s with
  | nil =>
    obtain ⟨-, rfl⟩ := runs_pure.mp h
    exact fulfils_of_registry hs (.refl _) (Registry.takesNone_of_scopes rfl)
  | cons i xs ih =>
    simp only [List.forIn_cons, runs_bind] at h
    obtain ⟨r, u, hi, h⟩ := h
    obtain ⟨rfl, hu⟩ := hf List.mem_cons_self hs hi
    exact hu.trans hs (ih (fun hi => hf (List.mem_cons_of_mem _ hi)) (hu.minds hs) h)

section Copying

variable {start : Label} {u u' : Session}

/-- A renamed instruction writes one of the new names, or no temporary. -/
theorem fulfils_of_emit_rename {v : Unit} (hρ : ρ.Freshens start xs u u') (himage : IsImage ρ news)
    (hi : i ∈ xs) (hs : s.Minds x (news ++ owed)) (h : s.Runs (emit (i.rename ρ)) v t) :
    s.Fulfils x (news ++ owed) t (news ++ owed) [i.rename ρ] {} := by
  refine pays_of_emit hs h (fun j hj => .inl (List.mem_append_left _ ?_)) (fun _ => id)
    fun _ => .inl
  rw [Instr.result?_rename] at hj
  obtain ⟨w, hw, hwj⟩ := Option.map_eq_some_iff.mp hj
  refine (himage _).mpr ⟨w, (hρ.hasVar_iff w).mpr ⟨?_, i, hi, hw⟩, hwj⟩
  refine Decidable.of_not_not fun htemp => ?_
  have hnew : ¬ ρ.hasVar w := fun hhas => htemp ((hρ.hasVar_iff w).mp hhas).1
  rw [Renaming.var_of_not_hasVar (Bool.eq_false_iff.mpr hnew)] at hwj
  rw [hwj] at htemp
  exact htemp rfl

theorem fulfils_of_copyInstr {r : ForInStep PUnit} (hρ : ρ.Freshens start xs u u')
    (himage : IsImage ρ news) (hi : i ∈ xs) (hs : s.Minds x (news ++ owed))
    (h : s.Runs (copyInstr (i.rename ρ)) r t) : r = .yield ⟨⟩ ∧
      s.Fulfils x (news ++ owed) t (news ++ owed) [i.rename ρ] {} := by
  obtain ⟨rfl, ⟨c, s₁, -, hclosure, hemit⟩ | ⟨-, hemit⟩⟩ := runs_copyInstr h
  · have h₁ := fulfils_of_addClosure hs hclosure
    exact ⟨rfl, h₁.trans hs (fulfils_of_emit_rename hρ himage hi (h₁.minds hs) hemit)⟩
  · exact ⟨rfl, fulfils_of_emit_rename hρ himage hi hs hemit⟩

/-- A copy writes all temporaries that it takes. -/
theorem clears_of_copyEnsure {v : Unit} (hs : s.Minds x owed)
    (h : s.Runs (copyEnsure frame) v t) : s.Clears x owed t owed := by
  simp only [copyEnsure] at h
  split at h
  · obtain ⟨-, rfl⟩ := runs_pure.mp h
    exact .refl hs
  simp only [runs_bind, runs_current] at h
  obtain ⟨m, s₁, hm, ρ, s₂, hρ, _, _, ⟨rfl, rfl⟩, _, s₃, hrecord, _, s₄, hlabel, _, s₅, hstart, _,
    s₆, hbody, hend⟩ := h
  have hfresh : ρ.Freshens frame.bodyStart frame.instrs s s₂ :=
    (Renaming.Freshens.of_start (makesLabel_of_newLabel hm)).of_foldlM hρ
  have h₁ := fulfils_of_newLabel hs hm
  have hnone : IsImage (Renaming.insertLabel ∅ frame.bodyStart m) [] := by
    refine fun v => ⟨fun hv => absurd hv List.not_mem_nil, ?_⟩
    rintro ⟨_, hw, -⟩
    cases hw
  have hs₁ : s₁.Minds x ([] ++ owed) := h₁.minds hs
  obtain ⟨news, himage, ys, h₂⟩ := clears_of_foldlM_freshen hs₁ hnone hρ
  have h₂ := h₁.trans hs h₂
  have h₃ := h₂.trans hs (fulfils_of_record (h₂.minds hs) hrecord)
  have h₄ := h₃.trans hs (fulfils_of_emit (h₃.minds hs) hlabel rfl)
  have h₅ := h₄.trans hs (fulfils_of_emit (h₄.minds hs) hstart rfl)
  have h₆ := h₅.trans hs (fulfils_of_forIn (f := fun i => copyInstr (i.rename ρ))
    (g := (·.rename ρ)) (fulfils_of_copyInstr hfresh himage) (h₅.minds hs) hbody)
  have h₇ := h₆.trans hs (fulfils_of_emit (h₆.minds hs) hend rfl)
  refine ⟨_, h₇.pays (fun _ => List.mem_append_right _) (fun _ => .inl) fun w hw => ?_⟩
  -- all new names are written
  rcases List.mem_append.mp hw with hw | hw
  · obtain ⟨a, ha, rfl⟩ := (himage _).mp hw
    obtain ⟨-, i, hi, hia⟩ := (hfresh.hasVar_iff a).mp ha
    refine .inr (mem_results.mpr ⟨i.rename ρ, ?_, ?_⟩)
    · simp only [List.mem_append, List.mem_map]
      exact .inl (.inr ⟨i, hi, rfl⟩)
    · rw [Instr.result?_rename, hia, Option.map_some]
  · exact .inl hw

end Copying

theorem clears_of_copyEnsures {loop : Option LoopId} {v : Unit} (hs : s.Minds x owed)
    (h : s.Runs (copyEnsures loop) v t) : s.Clears x owed t owed := by
  simp only [copyEnsures, runs_bind, runs_current, runs_pure] at h
  obtain ⟨_, _, ⟨rfl, rfl⟩, ⟨⟩, _, h, -, rfl⟩ := h
  generalize passedEnsures loop s.builder.ensures = frames at h
  induction frames generalizing s with
  | nil =>
    obtain ⟨-, rfl⟩ := runs_pure.mp h
    exact .refl hs
  | cons frame frames ih =>
    simp only [List.forIn_cons, runs_bind] at h
    obtain ⟨_, _, ⟨_, u, hcopy, hyield⟩, h⟩ := h
    obtain ⟨rfl, rfl⟩ := runs_pure.mp hyield
    have hu := clears_of_copyEnsure hs hcopy
    exact hu.trans hs (ih (hu.minds hs) h)

theorem sameScopes_of_emitEnsureBody {v : Unit} (h : s.Runs (emitEnsureBody frame) v t)
    (hs : s.registry.config.fullTrace = false) : s.SameScopes t := by
  simp only [emitEnsureBody, runs_bind, runs_pure] at h
  obtain ⟨_, u, hlabel, ⟨⟩, _, hbody, -, rfl⟩ := h
  have hu := sameScopes_of_emit hlabel hs
  refine hu.trans ?_
  have htrace : u.registry.config.fullTrace = false := by
    rw [(emits_of_emit hlabel).registry.config, hs]
  generalize frame.instrs = xs at hbody
  clear hlabel hu
  induction xs generalizing u with
  | nil =>
    obtain ⟨-, rfl⟩ := runs_pure.mp hbody
    exact ⟨rfl, rfl, rfl⟩
  | cons i xs ih =>
    simp only [List.forIn_cons, runs_bind, runs_pure] at hbody
    obtain ⟨_, _, ⟨_, w, hemit, rfl, rfl⟩, hbody⟩ := hbody
    have hw := sameScopes_of_emit hemit htrace
    refine hw.trans (ih w ?_ hbody)
    rw [(emits_of_emit hemit).registry.config, htrace]

/-- A body that is emitted as it was built writes what it writes, on behalf of those that it was
built by. -/
theorem fulfils_of_emitEnsureBody {v : Unit} {ws : List Variable} (hs : s.Minds x owed)
    (h : s.Runs (emitEnsureBody frame) v t) (hsub : ∀ v ∈ owed₁, v ∈ owed)
    (hpaid : ∀ v ∈ owed, v ∈ owed₁ ∨ v ∈ results frame.instrs)
    (hknown : ∀ i, x.temp i ∈ results frame.instrs → x.temp i ∈ ws ∨ s.Holds owed (x.temp i))
    (hwritten : ∀ v ∈ ws, v ∈ results frame.instrs) :
    s.Fulfils x owed t owed₁ (.label frame.bodyStart :: frame.instrs) { written := ws } := by
  have hemits := emits_of_emitEnsureBody h
  have hquiet := hemits.quiet (sameScopes_of_emitEnsureBody h hs.fullTrace)
  exact hemits.fulfils (hquiet.spends hs hsub hpaid hknown hwritten)

end Copying

end ScopeIR.Session
