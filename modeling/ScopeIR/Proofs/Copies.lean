import ScopeIR.Proofs.Emission

/-! Copies of ensure bodies: the renaming that a copy is made under, and where the copy ends up. -/

namespace ScopeIR

def Instr.label? : Instr → Option Label
  | .label l => some l
  | _ => none

theorem Instr.label?_eq_some {i : Instr} {l : Label} : i.label? = some l ↔ i = .label l := by
  cases i <;> simp only [label?, reduceCtorEq, Option.some.injEq, Instr.label.injEq]

namespace Renaming

variable {ρ ρ' : Renaming} {l l' m : Label} {v v' w : Variable}

@[simp] theorem label_insertLabel_self : (ρ.insertLabel l m).label l = m := by
  simp only [label, insertLabel, List.lookup_cons_self, Option.getD_some]

theorem label_insertLabel_ne (h : l' ≠ l) : (ρ.insertLabel l m).label l' = ρ.label l' := by
  have hb : (l' == l) = false := beq_false_of_ne h
  simp only [label, insertLabel, List.lookup_cons, hb]

@[simp] theorem var_insertLabel : (ρ.insertLabel l m).var = ρ.var := rfl

@[simp] theorem label_insertVar : (ρ.insertVar v w).label = ρ.label := rfl

@[simp] theorem var_insertVar_self : (ρ.insertVar v w).var v = w := by
  simp only [var, insertVar, List.lookup_cons_self, Option.getD_some]

theorem var_insertVar_ne (h : v' ≠ v) : (ρ.insertVar v w).var v' = ρ.var v' := by
  have hb : (v' == v) = false := beq_false_of_ne h
  simp only [var, insertVar, List.lookup_cons, hb]

theorem var_of_not_hasVar (h : ρ.hasVar v = false) : ρ.var v = v := by
  simp only [hasVar, Option.isSome_eq_false_iff, Option.isNone_iff_eq_none] at h
  rw [var, h, Option.getD_none]

/-- Between `s` and `t` nothing happened but that the label `first`, the labels that `xs` places and
the temporaries that `xs` writes were given new names. -/
structure Freshens (ρ : Renaming) (first : Label) (xs : List Instr) (s t : Session) : Prop
    extends s.Emits t [] where
  label_new : ∀ l, l = first ∨ .label l ∈ xs →
    (ρ.label l).stem = "LBL" ∧ s.labels ≤ (ρ.label l).index.toNat ∧
      (ρ.label l).index.toNat < t.labels
  label_inj : ∀ l l', l = first ∨ .label l ∈ xs → l' = first ∨ .label l' ∈ xs →
    ρ.label l = ρ.label l' → l = l'
  label_eq : ∀ l, ¬ (l = first ∨ .label l ∈ xs) → ρ.label l = l
  var_new : ∀ v, ρ.hasVar v →
    (ρ.var v).isTemp ∧ s.temps ≤ (ρ.var v).index ∧ (ρ.var v).index < t.temps
  hasVar_iff : ∀ v, ρ.hasVar v ↔ v.isTemp ∧ ∃ i ∈ xs, i.result? = some v

namespace Freshens

variable {first : Label} {xs : List Instr} {i : Instr} {s t u : Session}

/-- The start label is renamed before the body is looked at. -/
theorem of_start (hm : s.MakesLabel t "LBL" m) :
    ((∅ : Renaming).insertLabel first m).Freshens first [] s t where
  toEmits := hm.toEmits
  label_new := by
    rintro l (rfl | hl)
    · rw [label_insertLabel_self]
      exact ⟨hm.stem_eq, hm.ge, hm.lt⟩
    · cases hl
  label_inj := by
    rintro l l' (rfl | hl) (rfl | hl') -
    · rfl
    · cases hl'
    · cases hl
    · cases hl
  label_eq l hl := label_insertLabel_ne fun h => hl (.inl h)
  var_new v hv := nomatch hv
  hasVar_iff v := by
    constructor
    · intro hv
      cases hv
    · rintro ⟨-, i, hi, -⟩
      cases hi

/-- An instruction that places no label and writes no temporary that is still to be renamed. -/
theorem skip (h : ρ.Freshens first xs s t) (hl : i.label? = none)
    (hv : ∀ v, i.result? = some v → v.isTemp → ρ.hasVar v) :
    ρ.Freshens first (xs ++ [i]) s t := by
  have hmem : ∀ l, .label l ∈ xs ++ [i] ↔ .label l ∈ xs := by
    intro l
    rw [List.mem_append, List.mem_singleton, or_iff_left]
    rintro rfl
    cases hl
  refine ⟨h.toEmits, ?_, ?_, ?_, h.var_new, ?_⟩
  · simpa only [hmem] using h.label_new
  · simpa only [hmem] using h.label_inj
  · simpa only [hmem] using h.label_eq
  · intro v
    rw [h.hasVar_iff v]
    constructor
    · rintro ⟨ht, j, hj, hjv⟩
      exact ⟨ht, j, List.mem_append_left _ hj, hjv⟩
    · rintro ⟨ht, j, hj, hjv⟩
      rcases List.mem_append.mp hj with hj | hj
      · exact ⟨ht, j, hj, hjv⟩
      · obtain rfl := List.mem_singleton.mp hj
        exact (h.hasVar_iff v).mp (hv v hjv ht)

theorem insertLabel (h : ρ.Freshens first xs s u) (hm : u.MakesLabel t "LBL" m) :
    (ρ.insertLabel l m).Freshens first (xs ++ [.label l]) s t := by
  have hmem : ∀ {a}, a = first ∨ .label a ∈ xs ++ [.label l] →
      a ≠ l → a = first ∨ .label a ∈ xs := by
    intro a ha hne
    simpa only [List.mem_append, List.mem_singleton, Instr.label.injEq, hne, or_false] using ha
  -- earlier images were made before the new label and are below it
  have hnew : ∀ {a}, a = first ∨ .label a ∈ xs → ρ.label a ≠ m := by
    rintro a ha rfl
    have := (h.label_new a ha).2.2
    have := hm.ge
    omega
  refine ⟨h.toEmits.trans hm.toEmits, ?_, ?_, ?_, ?_, ?_⟩
  · intro a ha
    by_cases he : a = l
    · subst he
      rw [label_insertLabel_self]
      exact ⟨hm.stem_eq, h.labels_le.trans hm.ge, hm.lt⟩
    · obtain ⟨hstem, hge, hlt⟩ := h.label_new a (hmem ha he)
      rw [label_insertLabel_ne he]
      exact ⟨hstem, hge, hlt.trans_le hm.labels_le⟩
  · intro a b ha hb hab
    by_cases hal : a = l <;> by_cases hbl : b = l
    · exact hal.trans hbl.symm
    · subst hal
      rw [label_insertLabel_self, label_insertLabel_ne hbl] at hab
      exact absurd hab.symm (hnew (hmem hb hbl))
    · subst hbl
      rw [label_insertLabel_self, label_insertLabel_ne hal] at hab
      exact absurd hab (hnew (hmem ha hal))
    · rw [label_insertLabel_ne hal, label_insertLabel_ne hbl] at hab
      exact h.label_inj a b (hmem ha hal) (hmem hb hbl) hab
  · intro a ha
    have hal : a ≠ l := by
      rintro rfl
      exact ha (.inr (List.mem_append_right _ (List.mem_singleton_self _)))
    rw [label_insertLabel_ne hal]
    exact h.label_eq a fun h' => ha (h'.imp_right (List.mem_append_left _))
  · intro v hv
    obtain ⟨ht, hge, hlt⟩ := h.var_new v hv
    exact ⟨ht, hge, hlt.trans_le hm.temps_le⟩
  · intro v
    change ρ.hasVar v ↔ _
    simp only [h.hasVar_iff v, List.mem_append, List.mem_singleton, or_and_right, exists_or,
      exists_eq_left, Instr.result?, reduceCtorEq, or_false]

theorem later (h : ρ.Freshens first xs s u) (hu : u.Emits t []) : ρ.Freshens first xs s t where
  toEmits := h.toEmits.trans hu
  label_new l hl := by
    obtain ⟨hstem, hge, hlt⟩ := h.label_new l hl
    exact ⟨hstem, hge, hlt.trans_le hu.labels_le⟩
  label_inj := h.label_inj
  label_eq := h.label_eq
  var_new v hv := by
    obtain ⟨ht, hge, hlt⟩ := h.var_new v hv
    exact ⟨ht, hge, hlt.trans_le hu.temps_le⟩
  hasVar_iff := h.hasVar_iff

theorem insertVar (h : ρ.Freshens first xs s u) (hl : i.label? = none) (hi : i.result? = some v)
    (hv : v.isTemp) (hw : u.TakesTemp t w) : (ρ.insertVar v w).Freshens first (xs ++ [i]) s t := by
  have hhas : ∀ a, (ρ.insertVar v w).hasVar a ↔ a = v ∨ ρ.hasVar a := by
    intro a
    by_cases he : a = v
    · simp only [he, hasVar, Renaming.insertVar, List.lookup_cons_self, Option.isSome_some, true_or]
    · have hb : (a == v) = false := beq_false_of_ne he
      simp only [he, hasVar, Renaming.insertVar, List.lookup_cons, hb, false_or]
  have hmem : ∀ l, .label l ∈ xs ++ [i] ↔ .label l ∈ xs := by
    intro l
    rw [List.mem_append, List.mem_singleton, or_iff_left]
    rintro rfl
    cases hl
  have ht := h.later hw.toEmits
  refine ⟨ht.toEmits, ?_, ?_, ?_, ?_, ?_⟩
  · simpa only [hmem, label_insertVar] using ht.label_new
  · simpa only [hmem, label_insertVar] using ht.label_inj
  · simpa only [hmem, label_insertVar] using ht.label_eq
  · intro a ha
    by_cases he : a = v
    · subst he
      rw [var_insertVar_self]
      exact ⟨hw.isTemp, h.temps_le.trans hw.ge, hw.lt⟩
    · rw [var_insertVar_ne he]
      exact ht.var_new a (((hhas a).mp ha).resolve_left he)
  · intro a
    rw [hhas, h.hasVar_iff]
    simp only [List.mem_append, List.mem_singleton, or_and_right, exists_or, exists_eq_left, hi,
      Option.some.injEq]
    constructor
    · rintro (rfl | ⟨hat, ha⟩)
      · exact ⟨hv, .inr rfl⟩
      · exact ⟨hat, .inl ha⟩
    · rintro ⟨hat, ha | rfl⟩
      · exact .inr ⟨hat, ha⟩
      · exact .inl rfl

open Session in
theorem of_freshen (h : ρ.Freshens first xs s u) (hr : u.Runs (freshen ρ i) ρ' t) :
    ρ'.Freshens first (xs ++ [i]) s t := by
  simp only [freshen] at hr
  -- a label, a temporary that is written for the first time, or nothing to rename
  split at hr
  · next l =>
    simp only [runs_bind, runs_pure, Instr.result?] at hr
    obtain ⟨m, _, hm, _, _, ⟨rfl, rfl⟩, rfl, rfl⟩ := hr
    exact h.insertLabel (makesLabel_of_newLabel hm)
  next hlabel =>
  have hl : i.label? = none := by
    rw [Option.eq_none_iff_forall_ne_some]
    exact fun l hl => hlabel l (Instr.label?_eq_some.mp hl)
  obtain ⟨_, _, hpure, hr⟩ := runs_bind.mp hr
  obtain ⟨rfl, rfl⟩ := runs_pure.mp hpure
  split at hr
  · next v hv =>
    split at hr
    · next hnew =>
      simp only [Bool.and_eq_true] at hnew
      simp only [runs_bind, runs_pure] at hr
      obtain ⟨w, _, hw, rfl, rfl⟩ := hr
      exact h.insertVar hl hv hnew.1 (takesTemp_of_temp hw)
    · next hold =>
      obtain ⟨rfl, rfl⟩ := runs_pure.mp hr
      refine h.skip hl fun v' hv' ht => ?_
      obtain rfl := Option.some.inj (hv.symm.trans hv')
      simpa only [ht, Bool.true_and, Bool.not_eq_true', Bool.not_eq_false] using hold
  · next hnone =>
    obtain ⟨rfl, rfl⟩ := runs_pure.mp hr
    refine h.skip hl fun v hv => ?_
    rw [hnone] at hv
    cases hv

open Session in
theorem of_foldlM {ys : List Instr} (h : ρ.Freshens first xs s u)
    (hr : u.Runs (ys.foldlM freshen ρ) ρ' t) : ρ'.Freshens first (xs ++ ys) s t := by
  induction ys generalizing ρ xs u with
  | nil =>
    obtain ⟨rfl, rfl⟩ := runs_pure.mp hr
    rwa [List.append_nil]
  | cons i ys ih =>
    obtain ⟨σ, w, hi, hys⟩ := runs_bind.mp hr
    simpa only [List.append_assoc, List.singleton_append] using ih (h.of_freshen hi) hys

end Freshens

end Renaming

/-- A copy of the body. Raises in it go where they would go from the place the ensure was written. -/
def EnsureFrame.copy (frame : EnsureFrame) (ρ : Renaming) : List Instr :=
  .label (ρ.label frame.bodyStart) :: .regionStart frame.rescuer ::
    frame.instrs.map (·.rename ρ) ++ [.regionEnd]

namespace Session

/-- The frame's body was copied with new names for all that it defines. -/
inductive Copies (frame : EnsureFrame) (s t : Session) : List Instr → Prop
  | empty : frame.instrs = [] → s.Emits t [] → Copies frame s t []
  | full {ρ : Renaming} {u : Session} : ρ.Freshens frame.bodyStart frame.instrs s u →
    u.Emits t (frame.copy ρ) → Copies frame s t (frame.copy ρ)

/-- The bodies were copied one after the other. -/
inductive CopiesAll : List EnsureFrame → Session → Session → List Instr → Prop
  | nil {s t : Session} : s.Emits t [] → CopiesAll [] s t []
  | cons {s u t : Session} {frame : EnsureFrame} {frames : List EnsureFrame}
    {xs ys : List Instr} : Copies frame s u xs → CopiesAll frames u t ys →
    CopiesAll (frame :: frames) s t (xs ++ ys)

variable {s t u : Session} {frame : EnsureFrame} {frames : List EnsureFrame} {xs : List Instr}
  {v : Unit}

theorem Copies.emits (h : Copies frame s t xs) : s.Emits t xs := by
  cases h with
  | empty _ h => exact h
  | full hρ h => exact hρ.toEmits.trans h

theorem CopiesAll.emits (h : CopiesAll frames s t xs) : s.Emits t xs := by
  induction h with
  | nil h => exact h
  | cons h _ ih => exact h.emits.trans ih

theorem emits_of_forIn {g : Instr → Instr} {f : Instr → SessionM (ForInStep PUnit)}
    (hf : ∀ {s t : Session} {i : Instr} {r : ForInStep PUnit}, s.Runs (f i) r t →
      r = .yield ⟨⟩ ∧ s.Emits t [g i])
    (h : s.Runs (forIn xs PUnit.unit fun i _ => f i) v t) : s.Emits t (xs.map g) := by
  induction xs generalizing s with
  | nil =>
    obtain ⟨-, rfl⟩ := runs_pure.mp h
    exact .refl s
  | cons i xs ih =>
    simp only [List.forIn_cons, runs_bind] at h
    obtain ⟨r, u, hi, h⟩ := h
    obtain ⟨rfl, hu⟩ := hf hi
    exact hu.trans (ih h)

/-- One turn of the loop that emits a copy. The closures in the body are registered anew. -/
def copyInstr (i : Instr) : SessionM (ForInStep PUnit) := do
  if let some closure := i.closure? then addClosure closure
  emit i
  return .yield ⟨⟩

theorem runs_copyInstr {i : Instr} {r : ForInStep PUnit} (h : s.Runs (copyInstr i) r t) :
    r = .yield ⟨⟩ ∧
      ((∃ c u, i.closure? = some c ∧ s.Runs (addClosure c) () u ∧ u.Runs (emit i) () t) ∨
        i.closure? = none ∧ s.Runs (emit i) () t) := by
  unfold copyInstr at h
  split at h
  · next c hc =>
    simp only [runs_bind, runs_pure] at h
    obtain ⟨_, u, hclosure, _, _, hemit, rfl, rfl⟩ := h
    exact ⟨rfl, .inl ⟨c, u, hc, hclosure, hemit⟩⟩
  · next hc =>
    simp only [runs_bind, runs_pure] at h
    obtain ⟨_, _, hemit, rfl, rfl⟩ := h
    exact ⟨rfl, .inr ⟨Option.eq_none_iff_forall_ne_some.mpr hc, hemit⟩⟩

theorem copies_of_copyEnsure (h : s.Runs (copyEnsure frame) v t) : ∃ xs, Copies frame s t xs := by
  simp only [copyEnsure] at h
  split at h
  · next hnil =>
    obtain ⟨-, rfl⟩ := runs_pure.mp h
    exact ⟨[], .empty (List.isEmpty_iff.mp hnil) (.refl s)⟩
  simp only [runs_bind, runs_current] at h
  obtain ⟨m, _, hm, ρ, u, hρ, _, _, ⟨rfl, rfl⟩, _, _, hrecord, _, _, hlabel, _, _, hstart, _, _,
    hbody, hend⟩ := h
  have hρ := (Renaming.Freshens.of_start (makesLabel_of_newLabel hm)).of_foldlM hρ
  have hbody := emits_of_forIn (f := fun i => copyInstr (i.rename ρ)) (g := (·.rename ρ)) ?_ hbody
  · have hu := (emits_of_record hrecord).trans (emits_of_emit hlabel)
    have hu := (hu.trans (emits_of_emit hstart)).trans (hbody.trans (emits_of_emit hend))
    exact ⟨frame.copy ρ, .full hρ hu⟩
  · intro s t i r hi
    obtain ⟨rfl, ⟨c, u, -, hclosure, hemit⟩ | ⟨-, hemit⟩⟩ := runs_copyInstr hi
    · exact ⟨rfl, (emits_of_addClosure hclosure).trans (emits_of_emit hemit)⟩
    · exact ⟨rfl, emits_of_emit hemit⟩

theorem copiesAll_of_copyEnsures {loop : Option LoopId} (h : s.Runs (copyEnsures loop) v t) :
    ∃ xs, CopiesAll (passedEnsures loop s.builder.ensures) s t xs := by
  simp only [copyEnsures, runs_bind, runs_current, runs_pure] at h
  obtain ⟨_, _, ⟨rfl, rfl⟩, ⟨⟩, _, h, -, rfl⟩ := h
  generalize passedEnsures loop s.builder.ensures = frames at h
  induction frames generalizing s with
  | nil =>
    obtain ⟨-, rfl⟩ := runs_pure.mp h
    exact ⟨[], .nil (.refl s)⟩
  | cons frame frames ih =>
    simp only [List.forIn_cons, runs_bind] at h
    obtain ⟨_, _, ⟨_, u, hcopy, hyield⟩, h⟩ := h
    obtain ⟨rfl, rfl⟩ := runs_pure.mp hyield
    obtain ⟨xs, hxs⟩ := copies_of_copyEnsure hcopy
    obtain ⟨ys, hys⟩ := ih h
    exact ⟨xs ++ ys, .cons hxs hys⟩

theorem emits_of_emitEnsureBody (h : s.Runs (emitEnsureBody frame) v t) :
    s.Emits t (.label frame.bodyStart :: frame.instrs) := by
  simp only [emitEnsureBody, runs_bind, runs_pure] at h
  obtain ⟨_, u, hlabel, ⟨⟩, _, hbody, -, rfl⟩ := h
  have hbody := emits_of_forIn (g := id) ?_ hbody
  · rw [List.map_id] at hbody
    exact (emits_of_emit hlabel).trans hbody
  · intro s t i r hi
    simp only [runs_bind, runs_pure] at hi
    obtain ⟨_, _, hemit, rfl, rfl⟩ := hi
    exact ⟨rfl, emits_of_emit hemit⟩

end Session

end ScopeIR
