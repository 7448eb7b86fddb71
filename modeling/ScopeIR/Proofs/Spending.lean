import ScopeIR.Proofs.Recipes

/-! What building does with the numbers of temporaries: each number that is counted on belongs to a
temporary that is written, or that is still owed. -/

namespace ScopeIR

/-- All that the instructions write. -/
def results (xs : List Instr) : List Variable := xs.filterMap Instr.result?

@[simp] theorem results_nil : results [] = [] := rfl

@[simp] theorem results_append (xs ys : List Instr) :
    results (xs ++ ys) = results xs ++ results ys := List.filterMap_append ..

theorem results_cons (i : Instr) (xs : List Instr) :
    results (i :: xs) = i.result?.toList ++ results xs := by
  cases h : i.result? <;> simp only [results, List.filterMap_cons, h] <;> rfl

theorem mem_results {xs : List Instr} {v : Variable} :
    v ∈ results xs ↔ ∃ i ∈ xs, i.result? = some v := List.mem_filterMap

namespace Scope

variable {x y : Scope} {i j : UInt64}

theorem temp_injective (h : x.temp i = x.temp j) : i = j := by
  have hindex := congrArg Variable.index h
  rw [index_temp, index_temp] at hindex
  exact UInt64.toNat_inj.mp hindex

theorem GrowsTo.temp_eq (h : x.GrowsTo y) : y.temp = x.temp := by rw [h.same]; rfl

end Scope

namespace Registry

variable {g g' : Registry} {id : ScopeId} {x y : Scope}

/-- No scope that was there gave out a number. -/
def TakesNone (g g' : Registry) : Prop :=
  ∀ id x, g.scope? id = some x → g'.temps id = g.temps id

/-- No other scope that was there gave out a number. -/
def TakesFrom (g : Registry) (id : ScopeId) (g' : Registry) : Prop :=
  ∀ id' x, id' ≠ id → g.scope? id' = some x → g'.temps id' = g.temps id'

theorem temps_of_scope? (h : g.scope? id = some x) : g.temps id = x.nextTemp.toNat := by
  rw [temps, h, Option.elim_some]

theorem takesNone_of_scopes (h : g'.scopes = g.scopes) : g.TakesNone g' := by
  intro id x _
  rw [temps, temps, scope?, scope?, h]

theorem takesNone_setScope (hx : g.scope? id = some x) (hy : y.nextTemp = x.nextTemp) :
    g.TakesNone (g.setScope id y) := by
  intro id' x' hx'
  by_cases hid : id' = id
  · subst hid
    rw [temps_of_scope? (scope?_setScope_self hx), temps_of_scope? hx, hy]
  · rw [temps, scope?_setScope_ne hid, ← temps]

theorem takesFrom_setScope : g.TakesFrom id (g.setScope id y) := by
  intro id' x' hid _
  rw [temps, scope?_setScope_ne hid, ← temps]

theorem TakesNone.trans {g₁ g₂ g₃ : Registry} (hg : g₁.GrowsTo g₂) (h : g₁.TakesNone g₂)
    (h' : g₂.TakesNone g₃) : g₁.TakesNone g₃ := by
  intro id x hx
  obtain ⟨y, hy, -⟩ := hg.scope hx
  rw [h' id y hy, h id x hx]

theorem TakesNone.takesFrom (h : g.TakesNone g') : g.TakesFrom id g' := fun id' x _ => h id' x

theorem TakesFrom.trans {g₁ g₂ g₃ : Registry} (hg : g₁.GrowsTo g₂) (h : g₁.TakesFrom id g₂)
    (h' : g₂.TakesFrom id g₃) : g₁.TakesFrom id g₃ := by
  intro id' x hid hx
  obtain ⟨y, hy, -⟩ := hg.scope hx
  rw [h' id' y hid hy, h id' x hid hx]

end Registry

namespace Session

variable {s t u : Session} {x : Scope} {owed owed₁ owed₂ : List Variable} {vs vs' : List Variable}
  {l l' : Ledger} {v : Variable}

theorem Abides.temps_le (h : s.Abides t) : s.temps ≤ t.temps := by
  rw [temps, temps, h.tempScope]
  exact h.registry.temps_le _

/-- The builder still writes the variable: it is owed, the result of an open loop, or the block that
is loaded in the end. -/
def Holds (s : Session) (owed : List Variable) (v : Variable) : Prop :=
  v ∈ owed ∨ (∃ f ∈ s.builder.loops, f.result = v) ∨ s.builder.yieldClosure = some v

theorem Holds.mono (h : s.Holds owed v) (hsub : ∀ v ∈ owed, v ∈ owed₁) : s.Holds owed₁ v :=
  h.imp_left (hsub v)

/-- The builder is at work on the scope `x`, from which it takes temporaries, and does not trace
lines. What it still writes was taken. -/
structure Minds (x : Scope) (s : Session) (owed : List Variable) : Prop where
  own : ∃ y, s.registry.scope? s.builder.scope = some y ∧ x.GrowsTo y
  borrowsTemps : s.builder.borrowsTemps = false
  fullTrace : s.registry.config.fullTrace = false
  holds {i : UInt64} : s.Holds owed (x.temp i) → i.toNat < s.temps

theorem Minds.tempScope (hs : s.Minds x owed) : s.tempScope = s.builder.scope := by
  unfold Session.tempScope
  cases s.outer with
  | nil => rfl
  | cons p outer =>
    rw [Builder.tempOwner, if_neg (by rw [hs.borrowsTemps]; exact Bool.false_ne_true)]

/-- The variable is a temporary of the scope `x` that was taken between `s` and `t`. -/
def Takes (x : Scope) (s t : Session) (v : Variable) : Prop :=
  ∃ i, v = x.temp i ∧ s.temps ≤ i.toNat ∧ i.toNat < t.temps

theorem Takes.left (h : s.Takes x t v) (hle : t.temps ≤ u.temps) : s.Takes x u v := by
  obtain ⟨i, hv, hlo, hhi⟩ := h
  exact ⟨i, hv, hlo, hhi.trans_le hle⟩

theorem Takes.right (h : t.Takes x u v) (hle : s.temps ≤ t.temps) : s.Takes x u v := by
  obtain ⟨i, hv, hlo, hhi⟩ := h
  exact ⟨i, hv, hle.trans hlo, hhi⟩

theorem Takes.lt {i : UInt64} (h : s.Takes x t (x.temp i)) : i.toNat < t.temps := by
  obtain ⟨j, hj, -, hlt⟩ := h
  rwa [Scope.temp_injective hj]

theorem Takes.le {i : UInt64} (h : s.Takes x t (x.temp i)) : s.temps ≤ i.toNat := by
  obtain ⟨j, hj, hle, -⟩ := h
  rwa [Scope.temp_injective hj]

/-- No temporary is taken twice. -/
theorem Takes.disjoint (h : s.Takes x t v) (h' : t.Takes x u v) : False := by
  obtain ⟨i, rfl, -, hlt⟩ := h
  exact absurd hlt (Nat.not_lt.mpr h'.le)

/-- Between `s` and `t` the variables `vs` are written. Whatever the scope counts on in the meantime is
the number of one of them, or of one that is owed in the end or entered in the ledger. Nothing that
was owed is forgotten, and what was refused is written by nobody but the program. -/
structure Spends (x : Scope) (s : Session) (owed : List Variable) (t : Session)
    (owed' : List Variable) (vs : List Variable) (l : Ledger) : Prop extends s.Abides t where
  others : s.registry.TakesFrom s.builder.scope t.registry
  needs : s.builder.needsYieldBlock = s.builder.yieldClosure.isSome →
    t.builder.needsYieldBlock = t.builder.yieldClosure.isSome
  yields {v : Variable} : s.builder.yieldClosure = some v → t.builder.yieldClosure = some v
  held {v : Variable} : t.Holds owed' v → s.Holds owed v ∨ s.Takes x t v
  paid {v : Variable} : v ∈ owed → v ∈ owed' ∨ v ∈ vs
  filled {v : Variable} : s.Takes x t v → v ∈ vs ∨ v ∈ owed' ∨ v ∈ l.asked ∨ v ∈ l.refused ∨
    t.builder.yieldClosure = some v
  known {i : UInt64} : x.temp i ∈ vs → s.Takes x t (x.temp i) ∨ x.temp i ∈ l.written ∨
    s.Holds owed (x.temp i)
  written {v : Variable} : v ∈ l.written → v ∈ vs
  returned {i : UInt64} : x.temp i ∈ l.returned → i.toNat < t.temps
  refused {v : Variable} : v ∈ l.refused → s.Takes x t v ∧ (v ∈ vs → v ∈ l.written) ∧
    ¬ t.Holds owed' v

namespace Spends

theorem minds (h : s.Spends x owed t owed₁ vs l) (hs : s.Minds x owed) : t.Minds x owed₁ where
  own := by
    obtain ⟨y, hy, hxy⟩ := hs.own
    obtain ⟨z, hz, hyz⟩ := h.registry.scope hy
    exact ⟨z, h.scope ▸ hz, hxy.trans hyz⟩
  borrowsTemps := h.borrowsTemps.trans hs.borrowsTemps
  fullTrace := by rw [h.registry.config, hs.fullTrace]
  holds hi := by
    rcases h.held hi with hheld | hnew
    · exact (hs.holds hheld).trans_le h.toAbides.temps_le
    · exact hnew.lt

theorem trans (hs : s.Minds x owed) (h : s.Spends x owed t owed₁ vs l)
    (h' : t.Spends x owed₁ u owed₂ vs' l') : s.Spends x owed u owed₂ (vs ++ vs') (l ++ l') where
  toAbides := h.toAbides.trans h'.toAbides
  others := h.others.trans h.registry (h.scope ▸ h'.others)
  needs hn := h'.needs (h.needs hn)
  yields hv := h'.yields (h.yields hv)
  held hv := by
    rcases h'.held hv with hv | hv
    · exact (h.held hv).imp_right (·.left h'.toAbides.temps_le)
    · exact .inr (hv.right h.toAbides.temps_le)
  paid hv := by
    rcases h.paid hv with hv | hv
    · exact (h'.paid hv).imp_right (List.mem_append_right _)
    · exact .inr (List.mem_append_left _ hv)
  filled {v} hv := by
    obtain ⟨i, rfl, hlo, hhi⟩ := hv
    by_cases hmiddle : i.toNat < t.temps
    · rcases h.filled ⟨i, rfl, hlo, hmiddle⟩ with hv | hv | hv | hv | hv
      · exact .inl (List.mem_append_left _ hv)
      · rcases h'.paid hv with hv | hv
        · exact .inr (.inl hv)
        · exact .inl (List.mem_append_right _ hv)
      · exact .inr (.inr (.inl (List.mem_append_left _ hv)))
      · exact .inr (.inr (.inr (.inl (List.mem_append_left _ hv))))
      · exact .inr (.inr (.inr (.inr (h'.yields hv))))
    · rcases h'.filled ⟨i, rfl, Nat.not_lt.mp hmiddle, hhi⟩ with hv | hv | hv | hv | hv
      · exact .inl (List.mem_append_right _ hv)
      · exact .inr (.inl hv)
      · exact .inr (.inr (.inl (List.mem_append_right _ hv)))
      · exact .inr (.inr (.inr (.inl (List.mem_append_right _ hv))))
      · exact .inr (.inr (.inr (.inr hv)))
  known hv := by
    rcases List.mem_append.mp hv with hv | hv
    · rcases h.known hv with hv | hv | hv
      · exact .inl (hv.left h'.toAbides.temps_le)
      · exact .inr (.inl (List.mem_append_left _ hv))
      · exact .inr (.inr hv)
    · rcases h'.known hv with hv | hv | hv
      · exact .inl (hv.right h.toAbides.temps_le)
      · exact .inr (.inl (List.mem_append_right _ hv))
      · rcases h.held hv with hv | hv
        · exact .inr (.inr hv)
        · exact .inl (hv.left h'.toAbides.temps_le)
  written hv := by
    rcases List.mem_append.mp hv with hv | hv
    · exact List.mem_append_left _ (h.written hv)
    · exact List.mem_append_right _ (h'.written hv)
  returned hv := by
    rcases List.mem_append.mp hv with hv | hv
    · exact (h.returned hv).trans_le h'.toAbides.temps_le
    · exact h'.returned hv
  refused {v} hv := by
    rcases List.mem_append.mp hv with hv | hv
    · -- later on it could only be written where it is held
      obtain ⟨hnew, hwritten, hheld⟩ := h.refused hv
      refine ⟨hnew.left h'.toAbides.temps_le, fun hmem => ?_, fun hmem => ?_⟩
      · rcases List.mem_append.mp hmem with hmem | hmem
        · exact List.mem_append_left _ (hwritten hmem)
        · obtain ⟨i, rfl, -, hlt⟩ := hnew
          rcases h'.known hmem with hmem | hmem | hmem
          · exact absurd hlt (Nat.not_lt.mpr hmem.le)
          · exact List.mem_append_right _ hmem
          · exact absurd hmem hheld
      · rcases h'.held hmem with hmem | hmem
        · exact hheld hmem
        · exact hnew.disjoint hmem
    · obtain ⟨hnew, hwritten, hheld⟩ := h'.refused hv
      refine ⟨hnew.right h.toAbides.temps_le, fun hmem => ?_, hheld⟩
      rcases List.mem_append.mp hmem with hmem | hmem
      · obtain ⟨i, rfl, hle, -⟩ := hnew
        rcases h.known hmem with hmem | hmem | hmem
        · exact absurd hmem.lt (Nat.not_lt.mpr hle)
        · exact List.mem_append_left _ hmem
        · exact absurd (hs.holds hmem) (Nat.not_lt.mpr (h.toAbides.temps_le.trans hle))
      · exact List.mem_append_right _ (hwritten hmem)

/-- What the builder does not write any more is entered in the ledger, or was written. -/
theorem enter (h : s.Spends x owed t owed₁ vs l) (hsub : ∀ v ∈ owed₂, v ∈ owed₁)
    (hpaid : ∀ v ∈ owed, v ∈ owed₂ ∨ v ∈ vs)
    (hleft : ∀ v ∈ owed₁, v ∈ owed₂ ∨ v ∈ vs ∨ v ∈ l'.asked ∨ v ∈ l'.refused)
    (hwritten : ∀ v ∈ l'.written, v ∈ vs)
    (hreturned : ∀ i, x.temp i ∈ l'.returned → i.toNat < t.temps)
    (hrefused : ∀ v ∈ l'.refused, s.Takes x t v ∧ (v ∈ vs → v ∈ (l ++ l').written) ∧
      ¬ t.Holds owed₂ v) : s.Spends x owed t owed₂ vs (l ++ l') where
  toAbides := h.toAbides
  others := h.others
  needs := h.needs
  yields := h.yields
  held hv := h.held (hv.mono hsub)
  paid hv := hpaid _ hv
  filled hv := by
    rcases h.filled hv with hv | hv | hv | hv | hv
    · exact .inl hv
    · rcases hleft _ hv with hv | hv | hv | hv
      · exact .inr (.inl hv)
      · exact .inl hv
      · exact .inr (.inr (.inl (List.mem_append_right _ hv)))
      · exact .inr (.inr (.inr (.inl (List.mem_append_right _ hv))))
    · exact .inr (.inr (.inl (List.mem_append_left _ hv)))
    · exact .inr (.inr (.inr (.inl (List.mem_append_left _ hv))))
    · exact .inr (.inr (.inr (.inr hv)))
  known hv := by
    rcases h.known hv with hv | hv | hv
    · exact .inl hv
    · exact .inr (.inl (List.mem_append_left _ hv))
    · exact .inr (.inr hv)
  written hv := by
    rcases List.mem_append.mp hv with hv | hv
    · exact h.written hv
    · exact hwritten _ hv
  returned hv := by
    rcases List.mem_append.mp hv with hv | hv
    · exact h.returned hv
    · exact hreturned _ hv
  refused hv := by
    rcases List.mem_append.mp hv with hv | hv
    · obtain ⟨hnew, hmem, hheld⟩ := h.refused hv
      exact ⟨hnew, fun hv => List.mem_append_left _ (hmem hv), fun hv => hheld (hv.mono hsub)⟩
    · exact hrefused _ hv

/-- In which order the program wrote does not matter. -/
theorem congr_written {ws : List Variable} (h : s.Spends x owed t owed₁ vs l)
    (hws : ∀ v, v ∈ l.written ↔ v ∈ ws) : s.Spends x owed t owed₁ vs { l with written := ws } where
  toAbides := h.toAbides
  others := h.others
  needs := h.needs
  yields := h.yields
  held := h.held
  paid := h.paid
  filled := h.filled
  known hv := (h.known hv).imp_right (·.imp_left (hws _).mp)
  written hv := h.written ((hws _).mpr hv)
  returned := h.returned
  refused hv := by
    obtain ⟨hnew, hwritten, hheld⟩ := h.refused hv
    exact ⟨hnew, fun hv => (hws _).mp (hwritten hv), hheld⟩

/-- What was kept back counts as written from where it was built. -/
theorem release {k : Ledger}
    (h : s.Spends x owed t owed₁ vs ({ k with written := [] } ++ l ++ { written := k.written })) :
    s.Spends x owed t owed₁ vs (k ++ l) := by
  have hledger : { { k with written := [] } ++ l ++ { written := k.written } with
      written := k.written ++ l.written } = k ++ l := by
    change Ledger.mk .. = Ledger.mk ..
    simp only [Ledger.mk.injEq]
    exact ⟨List.append_nil _, trivial, List.append_nil _, List.append_nil _⟩
  rw [← hledger]
  exact h.congr_written fun v => by
    rw [List.mem_append, or_comm, ← List.mem_append]
    rfl

/-- If nothing is written yet of what was built, all that was taken for it is owed. -/
theorem withhold (h : s.Spends x owed t owed vs l) :
    ∃ news, s.Spends x owed t (news ++ owed) [] { l with written := [] } ∧ (∀ v ∈ news, v ∈ vs) ∧
      ∀ i, x.temp i ∈ vs → x.temp i ∈ news ∨ x.temp i ∈ l.written ∨ s.Holds owed (x.temp i) := by
  classical
  -- what was refused is nobody's debt, even if the program writes it
  have hnews : ∃ news : List Variable, ∀ v, v ∈ news ↔ v ∈ vs ∧ s.Takes x t v ∧ v ∉ l.refused :=
    ⟨vs.filter fun v => s.Takes x t v ∧ v ∉ l.refused, fun v => by
      rw [List.mem_filter, decide_eq_true_iff]⟩
  obtain ⟨news, hnews⟩ := hnews
  have hholds {v : Variable} (hv : t.Holds (news ++ owed) v) : v ∈ news ∨ t.Holds owed v := by
    rcases hv with hv | hv
    · exact (List.mem_append.mp hv).imp_right .inl
    · exact .inr (.inr hv)
  refine ⟨news, ⟨h.toAbides, h.others, h.needs, h.yields, fun hv => ?_, fun hv => ?_,
    fun {v} hv => ?_, fun hv => absurd hv List.not_mem_nil, fun hv => absurd hv List.not_mem_nil, h.returned,
    fun hv => ?_⟩, fun v hv => ((hnews v).mp hv).1, fun i hi => ?_⟩
  · rcases hholds hv with hv | hv
    · exact .inr ((hnews _).mp hv).2.1
    · exact h.held hv
  · exact .inl (List.mem_append_right _ hv)
  · rcases h.filled hv with hmem | hmem | hmem | hmem | hmem
    · by_cases hrefused : v ∈ l.refused
      · exact .inr (.inr (.inr (.inl hrefused)))
      · exact .inr (.inl (List.mem_append_left _ ((hnews _).mpr ⟨hmem, hv, hrefused⟩)))
    · exact .inr (.inl (List.mem_append_right _ hmem))
    · exact .inr (.inr (.inl hmem))
    · exact .inr (.inr (.inr (.inl hmem)))
    · exact .inr (.inr (.inr (.inr hmem)))
  · obtain ⟨hnew, -, hheld⟩ := h.refused hv
    refine ⟨hnew, fun hmem => absurd hmem List.not_mem_nil, fun hmem => ?_⟩
    rcases hholds hmem with hmem | hmem
    · exact ((hnews _).mp hmem).2.2 hv
    · exact hheld hmem
  · rcases h.known hi with htakes | hwritten | hheld
    · by_cases hrefused : x.temp i ∈ l.refused
      · exact .inr (.inl ((h.refused hrefused).2.1 hi))
      · exact .inl ((hnews _).mpr ⟨hi, htakes, hrefused⟩)
    · exact .inr (.inl hwritten)
    · exact .inr (.inr hheld)

end Spends

end Session

end ScopeIR
