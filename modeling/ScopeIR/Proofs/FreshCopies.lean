import Mathlib.Data.List.Induction
import ScopeIR.Proofs.CarriedValues
import ScopeIR.Proofs.Proceeding

/-! What a copy of an ensure body looks like, down to the lines: the body under one renaming that
takes what the body defines to names of which none was handed out before. -/

namespace ScopeIR

theorem Registry.closures_setScope {g : Registry} {id : ScopeId} {x y : Scope} (hx : g.scope? id = some x)
    (hy : y.closures = x.closures) (id' : ScopeId) :
    (g.setScope id y).closures id' = g.closures id' := by
  unfold closures
  by_cases hid : id' = id
  · subst hid
    rw [scope?_setScope_self hx, hx, Option.elim_some, Option.elim_some, hy]
  · rw [scope?_setScope_ne hid]

/-- The list with the closure in it, which goes to the end if it is new. -/
def joined (closures : List ScopeId) (c : ScopeId) : List ScopeId :=
  if c ∈ closures then closures else closures ++ [c]

/-- What joins a list is what was not in it, each once. -/
theorem exists_joined (closures cs : List ScopeId) : ∃ new, cs.foldl joined closures = closures ++ new ∧
    new.Nodup ∧ ∀ c, c ∈ new ↔ c ∈ cs ∧ c ∉ closures := by
  induction cs using List.reverseRecOn with
  | nil => exact ⟨[], (List.append_nil _).symm, List.nodup_nil, by simp⟩
  | append_singleton cs c ih =>
    obtain ⟨new, hnew, hnodup, hmem⟩ := ih
    rw [List.foldl_concat, hnew, joined]
    by_cases hc : c ∈ closures ++ new
    · refine ⟨new, if_pos hc, hnodup, fun d => ?_⟩
      rw [hmem, List.mem_append, List.mem_singleton]
      refine ⟨fun h => ⟨.inl h.1, h.2⟩, fun ⟨hd, hold⟩ => ⟨hd.elim id ?_, hold⟩⟩
      rintro rfl
      exact ((hmem d).mp ((List.mem_append.mp hc).resolve_left hold)).1
    · refine ⟨new ++ [c], by rw [if_neg hc, List.append_assoc], ?_, fun d => ?_⟩
      · rw [List.nodup_append]
        refine ⟨hnodup, List.nodup_singleton c, fun a ha b hb => ?_⟩
        rw [List.mem_singleton.mp hb]
        rintro rfl
        exact hc (List.mem_append_right _ ha)
      · rw [List.mem_append, List.mem_append, List.mem_singleton, hmem]
        constructor
        · rintro (h | rfl)
          · exact ⟨.inl h.1, h.2⟩
          · exact ⟨.inr rfl, fun h => hc (List.mem_append_left _ h)⟩
        · rintro ⟨h | h, hold⟩
          · exact .inl ⟨h, hold⟩
          · exact .inr h

namespace Session

variable {s t u : Session} {xs ys : List Instr} {cs ds : List ScopeId} {i : Instr}

def closures (s : Session) : List ScopeId := s.registry.closures s.builder.scope

/-- What is written before the next instruction on behalf of a line that was noted. -/
inductive Pending (s : Session) : List Instr → Prop
  | settled : s.builder.ensureBodies ≠ [] ∨ s.builder.line.pending = none → Pending s []
  | line {line : Int32} : s.builder.ensureBodies = [] → s.builder.line.pending = some line →
    s.registry.config.fullTrace = false → Pending s [.lineNumber line s.builder.coverage]
  | traced {line : Int32} {point : TracePoint} : s.builder.ensureBodies = [] →
    s.builder.line.pending = some line → s.registry.config.fullTrace →
    point.event = .line → nextLine line = some point.line →
      Pending s [.lineNumber line s.builder.coverage, .tracePoint point]

/-- From `s` to `t` exactly `xs` was added to the list at work, lines included, and `cs` were registered
as closures. -/
structure Lays (s t : Session) (xs : List Instr) (cs : List ScopeId) : Prop
    extends s.Emits t xs where
  instrs : t.builder.instrs.toList =
    s.builder.instrs.toList ++ if s.builder.ensureBodies = [] then xs else []
  closures : t.closures = cs.foldl joined s.closures

/-- Nothing but numbers was taken. -/
structure Counts (s t : Session) : Prop extends s.Emits t [] where
  builder : t.builder = s.builder
  closures : ∀ id, t.registry.closures id = s.registry.closures id

theorem Lays.trans (h : s.Lays t xs cs) (h' : t.Lays u ys ds) :
    s.Lays u (xs ++ ys) (cs ++ ds) where
  toEmits := h.toEmits.trans h'.toEmits
  instrs := by
    have hb : t.builder.ensureBodies = [] ↔ s.builder.ensureBodies = [] := by
      rw [h.bodies, addToBody_eq_nil]
    rw [h'.instrs, h.instrs]
    by_cases hs : s.builder.ensureBodies = []
    · rw [if_pos hs, if_pos hs, if_pos (hb.mpr hs), List.append_assoc]
    · rw [if_neg hs, if_neg hs, if_neg (mt hb.mp hs), List.append_nil, List.append_nil]
  closures := by rw [h'.closures, h.closures, List.foldl_append]

namespace Counts

theorem refl (s : Session) : s.Counts s := ⟨.refl s, rfl, fun _ => rfl⟩

theorem trans (h : s.Counts t) (h' : t.Counts u) : s.Counts u :=
  ⟨h.toEmits.trans h'.toEmits, h'.builder.trans h.builder,
    fun id => (h'.closures id).trans (h.closures id)⟩

theorem lays (h : s.Counts t) : s.Lays t [] [] where
  toEmits := h.toEmits
  instrs := by rw [h.builder, ite_self, List.append_nil]
  closures := by
    unfold Session.closures
    rw [h.builder, h.closures]
    rfl

theorem pending (h : s.Counts t) (hxs : t.Pending xs) : s.Pending xs := by
  have hconfig := h.registry.config
  cases hxs with
  | settled hs => exact .settled (h.builder ▸ hs)
  | line hb hp hf => exact h.builder ▸ .line (h.builder ▸ hb) (h.builder ▸ hp) (hconfig ▸ hf)
  | traced hb hp hf he hn =>
    exact h.builder ▸ .traced (h.builder ▸ hb) (h.builder ▸ hp) (hconfig ▸ hf) he hn

end Counts

section Steps

variable {v : Unit}

theorem closures_of_nextTemp {g g' : Registry} {id : ScopeId} {n : UInt64}
    (h : g.Runs (RegistryM.nextTemp id) n g') (id' : ScopeId) : g'.closures id' = g.closures id' := by
  obtain ⟨x, next, hx, -, -, rfl⟩ := Registry.eq_of_nextTemp h
  refine Registry.closures_setScope hx ?_ id'
  rfl

theorem counts_of_temp {r : Variable} (h : s.Runs temp r t) : s.Counts t := by
  have ht := (takesTemp_of_temp h).toEmits
  obtain ⟨n, g, x, hn, -, -, rfl⟩ := runs_temp h
  exact ⟨ht, rfl, closures_of_nextTemp hn⟩

theorem counts_of_newLabel {l : Label} (h : s.Runs newLabel l t) : s.Counts t := by
  have ht := (makesLabel_of_newLabel h).toEmits
  obtain ⟨g, hl, rfl⟩ := runs_newLabelNamed.mp h
  obtain ⟨x, next, hx, -, -, rfl⟩ := Registry.eq_of_newLabel hl
  exact ⟨ht, rfl, Registry.closures_setScope hx rfl⟩

theorem counts_of_record {e : Event} (h : s.Runs (liftM (RegistryM.record e)) v t) :
    s.Counts t := by
  have ht := emits_of_record h
  obtain ⟨g, hg, rfl⟩ := runs_liftM.mp h
  obtain rfl := Registry.runs_record.mp hg
  exact ⟨ht, rfl, fun _ => rfl⟩

theorem counts_of_freshenLabel {ρ ρ' : Renaming} (h : s.Runs (freshenLabel ρ i) ρ' t) :
    s.Counts t ∧ ρ'.vars = ρ.vars := by
  unfold freshenLabel at h
  split at h
  · obtain ⟨l, _, hl, hpure⟩ := runs_bind.mp h
    obtain ⟨rfl, rfl⟩ := runs_pure.mp hpure
    exact ⟨counts_of_newLabel hl, rfl⟩
  · obtain ⟨rfl, rfl⟩ := runs_pure.mp h
    exact ⟨.refl s, rfl⟩

theorem counts_of_freshen {ρ ρ' : Renaming} (h : s.Runs (freshen ρ i) ρ' t) : s.Counts t := by
  rw [freshen_eq] at h
  obtain ⟨σ, u, hlabel, hresult⟩ := runs_bind.mp h
  refine (counts_of_freshenLabel hlabel).1.trans ?_
  unfold freshenResult at hresult
  split at hresult
  · split at hresult
    · obtain ⟨r, _, hr, hpure⟩ := runs_bind.mp hresult
      obtain ⟨-, rfl⟩ := runs_pure.mp hpure
      exact counts_of_temp hr
    · obtain ⟨-, rfl⟩ := runs_pure.mp hresult
      exact .refl u
  · obtain ⟨-, rfl⟩ := runs_pure.mp hresult
    exact .refl u

theorem counts_of_foldlM_freshen {ρ ρ' : Renaming} (h : s.Runs (xs.foldlM freshen ρ) ρ' t) :
    s.Counts t := by
  induction xs generalizing s ρ with
  | nil =>
    obtain ⟨-, rfl⟩ := runs_pure.mp h
    exact .refl s
  | cons i xs ih =>
    obtain ⟨σ, u, hi, hxs⟩ := runs_bind.mp h
    exact (counts_of_freshen hi).trans (ih hxs)

theorem lays_of_addClosure {c : ScopeId} (h : s.Runs (addClosure c) v t) : s.Lays t [] [c] := by
  have ht := emits_of_addClosure h
  obtain ⟨g, hg, rfl⟩ := runs_addClosure.mp h
  obtain ⟨x, hx, rfl⟩ := Registry.runs_updateScope.mp hg
  refine ⟨ht, by rw [ite_self, List.append_nil], ?_⟩
  change Registry.closures _ s.builder.scope = joined (s.registry.closures s.builder.scope) c
  unfold Registry.closures
  rw [Registry.scope?_setScope_self hx, hx, Option.elim_some, Option.elim_some, joined]
  split <;> rfl

theorem lays_append (hs : s.builder.ensureBodies = []) :
    s.Lays (s.announce s.builder.instrs.size i (s.builder.append i)) [i] [] := by
  refine ⟨emits_append hs, ?_, rfl⟩
  simp only [announce, Builder.append, Array.toList_push, if_pos hs]

theorem lays_of_currentModuleVar {r : Variable} (h : s.Runs currentModuleVar r t) :
    s.Lays t [] [] ∧ t.builder.line = s.builder.line := by
  have ht := emits_of_currentModuleVar h
  obtain ⟨-, rfl⟩ | ⟨-, n, g, hn, -, rfl⟩ := runs_currentModuleVar h
  · exact ⟨(Counts.refl t).lays, rfl⟩
  · exact ⟨⟨ht, by rw [ite_self, List.append_nil], closures_of_nextTemp hn _⟩, rfl⟩

theorem lays_lined (line : Int32) (hs : s.builder.ensureBodies = []) :
    s.Lays (s.lined line) [.lineNumber line s.builder.coverage] [] := by
  have hsettles : s.Lays { s with builder := { s.builder with
      line := { s.builder.line with pending := none } } } [] [] :=
    ⟨⟨.of_sameList (.refl _) rfl rfl rfl (fun _ => id) le_rfl rfl rfl rfl, ⟨rfl, rfl, rfl, rfl⟩⟩,
      by rw [ite_self, List.append_nil], rfl⟩
  exact hsettles.trans (lays_append hs)

/-- A pending line is written with its trace, and no line is pending then. -/
theorem lays_of_flushLine (h : s.Runs flushLine v t) (hs : s.builder.ensureBodies = []) :
    ∃ ls, s.Pending ls ∧ s.Lays t ls [] ∧ t.builder.line.pending = none := by
  cases flushing_of_flushLine h with
  | idle hnone => exact ⟨[], .settled (.inr hnone), (Counts.refl s).lays, hnone⟩
  | plain hline htraces => exact ⟨_, .line hs hline htraces, lays_lined _ hs, rfl⟩
  | @traced line u point hline htraces hmodule hevent hnext =>
    obtain ⟨hu, hsame⟩ := lays_of_currentModuleVar hmodule
    have hu := (lays_lined line hs).trans hu
    refine ⟨_, .traced hs hline htraces hevent hnext, hu.trans (lays_append ?_), ?_⟩
    · exact hu.bodies.trans (congrArg (addToBody _) hs)
    · exact congrArg (·.pending) hsame

theorem lays_of_emit (h : s.Runs (emit i) v t) :
    ∃ ls, s.Pending ls ∧ s.Lays t (ls ++ [i]) [] ∧ t.Pending [] := by
  have hemits := emits_of_emit h
  cases hs : s.builder.ensureBodies with
  | cons f fs =>
    have hne : s.builder.ensureBodies ≠ [] := hs ▸ List.cons_ne_nil f fs
    obtain rfl := (runs_emit_body hs).mp h
    refine ⟨[], .settled (.inl hne), ⟨hemits, ?_, rfl⟩, .settled (.inl (List.cons_ne_nil _ _))⟩
    simp only [if_neg hne, List.append_nil]
  | nil =>
    obtain ⟨u, hflush, rfl⟩ := (runs_emit_list hs).mp h
    obtain ⟨ls, hls, hu, hsettled⟩ := lays_of_flushLine hflush hs
    have ht := lays_append (i := i) (hu.bodies.trans (congrArg (addToBody _) hs))
    exact ⟨ls, hls, hu.trans ht, .settled (.inr hsettled)⟩

/-- Where no line is pending, an instruction is added alone. -/
theorem lays_of_emit_settled (h : s.Runs (emit i) v t) (hs : s.Pending []) :
    s.Lays t [i] [] ∧ t.Pending [] := by
  obtain ⟨ls, hls, ht, hsettled⟩ := lays_of_emit h
  cases hs with
  | settled hs =>
    cases hls with
    | settled => exact ⟨ht, hsettled⟩
    | line hb hp | traced hb hp =>
      rcases hs with hs | hs
      · exact absurd hb hs
      · cases hp.symm.trans hs

end Steps

end Session

/-- The copies of different variables that are written have different names. -/
def Renaming.Separates (ρ : Renaming) : Prop :=
  ∀ v w, ρ.hasVar v → ρ.hasVar w → ρ.var v = ρ.var w → v = w

namespace Renaming.Separates

open Session

variable {ρ ρ' : Renaming} {first : Label} {xs ys : List Instr} {i : Instr} {v w : Variable}
  {s t u : Session}

/-- A temporary that is taken later differs from all images so far. -/
theorem insertVar (h : ρ.Separates) (hρ : ∀ a, ρ.hasVar a → (ρ.var a).index < w.index) :
    (ρ.insertVar v w).Separates := by
  have hold : ∀ a, a ≠ v → (ρ.insertVar v w).hasVar a → ρ.hasVar a := by
    intro a ha hhas
    have hb : (a == v) = false := beq_false_of_ne ha
    simpa only [hasVar, Renaming.insertVar, List.lookup_cons, hb] using hhas
  intro a b ha hb hab
  by_cases hav : a = v <;> by_cases hbv : b = v
  · exact hav.trans hbv.symm
  · rw [hav, var_insertVar_self, var_insertVar_ne hbv] at hab
    have := hρ b (hold b hbv hb)
    rw [← hab] at this
    exact absurd this (Nat.lt_irrefl _)
  · rw [hbv, var_insertVar_self, var_insertVar_ne hav] at hab
    have := hρ a (hold a hav ha)
    rw [hab] at this
    exact absurd this (Nat.lt_irrefl _)
  · rw [var_insertVar_ne hav, var_insertVar_ne hbv] at hab
    exact h a b (hold a hav ha) (hold b hbv hb) hab

theorem of_freshen (h : ρ.Separates) (hρ : ρ.Freshens first xs s u)
    (hr : u.Runs (freshen ρ i) ρ' t) : ρ'.Separates := by
  rw [freshen_eq] at hr
  obtain ⟨σ, w, hlabel, hresult⟩ := runs_bind.mp hr
  obtain ⟨hw, hvars⟩ := counts_of_freshenLabel hlabel
  have hhas : ∀ a, σ.hasVar a = ρ.hasVar a := fun a => by rw [hasVar, hvars, hasVar]
  have hvar : ∀ a, σ.var a = ρ.var a := fun a => by rw [var, hvars, var]
  have hsep : σ.Separates := by
    intro a b ha hb hab
    rw [hhas] at ha hb
    rw [hvar, hvar] at hab
    exact h a b ha hb hab
  unfold freshenResult at hresult
  split at hresult
  · split at hresult
    · obtain ⟨r, _, htemp, hpure⟩ := runs_bind.mp hresult
      obtain ⟨rfl, rfl⟩ := runs_pure.mp hpure
      refine hsep.insertVar fun a ha => ?_
      rw [hhas] at ha
      rw [hvar]
      exact (hρ.var_new a ha).2.2.trans_le (hw.temps_le.trans (takesTemp_of_temp htemp).ge)
    · obtain ⟨rfl, rfl⟩ := runs_pure.mp hresult
      exact hsep
  · obtain ⟨rfl, rfl⟩ := runs_pure.mp hresult
    exact hsep

theorem of_foldlM (h : ρ.Separates) (hρ : ρ.Freshens first xs s u)
    (hr : u.Runs (ys.foldlM freshen ρ) ρ' t) : ρ'.Separates := by
  induction ys generalizing ρ xs u with
  | nil =>
    obtain ⟨rfl, rfl⟩ := runs_pure.mp hr
    exact h
  | cons i ys ih =>
    obtain ⟨σ, w, hi, hys⟩ := runs_bind.mp hr
    exact ih (h.of_freshen hρ hi) (hρ.of_freshen hi) hys

end Renaming.Separates

namespace Session

variable {s t u : Session} {frame : EnsureFrame} {v : Unit}

/-- The label cannot be made any more. -/
def PastLabel (s : Session) (l : Label) : Prop := l.stem = "LBL" → l.index.toNat < s.labels

/-- The variable cannot be taken any more. -/
def PastVar (s : Session) (v : Variable) : Prop := v.isTemp → v.index < s.temps

/-- All that the body defines was handed out before. -/
structure Defined (s : Session) (frame : EnsureFrame) : Prop where
  label : ∀ l, l = frame.bodyStart ∨ .label l ∈ frame.instrs → s.PastLabel l
  var : ∀ i ∈ frame.instrs, ∀ v, i.result? = some v → s.PastVar v

/-- From `s` to `t` the body was copied under the renaming, and nothing else was done. -/
structure CopiesUnder (s t : Session) (frame : EnsureFrame) (ρ : Renaming) : Prop where
  lays : ∃ ls, s.Pending ls ∧
    s.Lays t (ls ++ frame.copy ρ) (frame.instrs.filterMap Instr.closure?)
  label_moves : ∀ l, ρ.label l ≠ l ↔ l = frame.bodyStart ∨ .label l ∈ frame.instrs
  label_new : ∀ l, ρ.label l ≠ l → ¬ s.PastLabel (ρ.label l) ∧ t.PastLabel (ρ.label l)
  label_inj : ∀ l m, s.PastLabel l → s.PastLabel m → ρ.label l = ρ.label m → l = m
  var_moves : ∀ v, ρ.var v ≠ v ↔ v.isTemp ∧ ∃ i ∈ frame.instrs, i.result? = some v
  var_new : ∀ v, ρ.var v ≠ v → ¬ s.PastVar (ρ.var v) ∧ t.PastVar (ρ.var v)
  var_inj : ∀ v w, s.PastVar v → s.PastVar w → ρ.var v = ρ.var w → v = w

theorem pending_of_addClosure {c : ScopeId} (h : s.Runs (addClosure c) v t) (hs : s.Pending []) :
    t.Pending [] := by
  obtain ⟨g, -, rfl⟩ := runs_addClosure.mp h
  rcases hs with hs | _
  exact .settled hs

theorem lays_of_copyInstr {i : Instr} {r : ForInStep PUnit} (hs : s.Pending [])
    (h : s.Runs (copyInstr i) r t) :
    r = .yield ⟨⟩ ∧ s.Lays t [i] i.closure?.toList ∧ t.Pending [] := by
  obtain ⟨rfl, ⟨c, u, hc, hclosure, hemit⟩ | ⟨hc, hemit⟩⟩ := runs_copyInstr h
  · obtain ⟨ht, hsettled⟩ := lays_of_emit_settled hemit (pending_of_addClosure hclosure hs)
    rw [hc]
    exact ⟨rfl, (lays_of_addClosure hclosure).trans ht, hsettled⟩
  · rw [hc]
    exact ⟨rfl, lays_of_emit_settled hemit hs⟩

theorem lays_of_copyInstrs {ρ : Renaming} {xs : List Instr} (hs : s.Pending [])
    (h : s.Runs (forIn xs PUnit.unit fun i _ => copyInstr (i.rename ρ)) v t) :
    s.Lays t (xs.map (·.rename ρ)) (xs.filterMap Instr.closure?) ∧ t.Pending [] := by
  induction xs generalizing s with
  | nil =>
    obtain ⟨-, rfl⟩ := runs_pure.mp h
    exact ⟨(Counts.refl s).lays, hs⟩
  | cons i xs ih =>
    simp only [List.forIn_cons, runs_bind] at h
    obtain ⟨r, u, hi, h⟩ := h
    obtain ⟨rfl, hu, hsettled⟩ := lays_of_copyInstr hs hi
    obtain ⟨ht, hend⟩ := ih hsettled h
    rw [Instr.closure?_rename] at hu
    rw [List.filterMap_eq_flatMap_toList] at ht ⊢
    exact ⟨hu.trans ht, hend⟩

/-- A copy adds the pending line, if there is one, and then the body under one renaming. -/
theorem lays_of_copyEnsure (hne : frame.instrs ≠ []) (h : s.Runs (copyEnsure frame) v t) :
    ∃ ρ u, ρ.Freshens frame.bodyStart frame.instrs s u ∧ ρ.Separates ∧ u.labels ≤ t.labels ∧
      u.temps ≤ t.temps ∧ ∃ ls, s.Pending ls ∧
        s.Lays t (ls ++ frame.copy ρ) (frame.instrs.filterMap Instr.closure?) := by
  simp only [copyEnsure] at h
  rw [if_neg (mt List.isEmpty_iff.mp hne)] at h
  simp only [runs_bind, runs_current] at h
  obtain ⟨m, _, hm, ρ, u, hfold, w, _, ⟨rfl, rfl⟩, _, w₁, hrecord, _, w₂, hlabel, _, w₃, hstart, _,
    w₄, hbody, hend⟩ := h
  have hfirst : ((∅ : Renaming).insertLabel frame.bodyStart m).Freshens frame.bodyStart [] s _ :=
    .of_start (makesLabel_of_newLabel hm)
  have hρ := hfirst.of_foldlM hfold
  have hnone : ((∅ : Renaming).insertLabel frame.bodyStart m).Separates := by
    intro v w hv
    cases hv
  have hsep := hnone.of_foldlM hfirst hfold
  have hrecorded := counts_of_record hrecord
  have hcounts := ((counts_of_newLabel hm).trans (counts_of_foldlM_freshen hfold)).trans hrecorded
  obtain ⟨ls, hls, hw₂, hsettled⟩ := lays_of_emit hlabel
  obtain ⟨hw₃, hsettled⟩ := lays_of_emit_settled hstart hsettled
  obtain ⟨hw₄, hsettled⟩ := lays_of_copyInstrs hsettled hbody
  obtain ⟨ht, -⟩ := lays_of_emit_settled hend hsettled
  have hcopy := (hw₂.trans hw₃).trans (hw₄.trans ht)
  have hafter := hrecorded.lays.trans hcopy
  refine ⟨ρ, u, hρ, hsep, hafter.labels_le, hafter.temps_le, ls, hcounts.pending hls, ?_⟩
  have hall := hcounts.lays.trans hcopy
  simpa only [EnsureFrame.copy, List.nil_append, List.append_nil, List.append_assoc,
    List.cons_append] using hall

/-- Names that were handed out before and differ are taken to different names if those that are moved
get new ones. -/
theorem eq_of_moved {α : Type} {f : α → α} {Past Moved : α → Prop} {a b : α}
    (hnew : ∀ a, Moved a → ¬ Past (f a)) (heq : ∀ a, ¬ Moved a → f a = a)
    (hinj : ∀ a b, Moved a → Moved b → f a = f b → a = b) (ha : Past a) (hb : Past b)
    (hab : f a = f b) : a = b := by
  by_cases hma : Moved a <;> by_cases hmb : Moved b
  · exact hinj a b hma hmb hab
  · exact absurd (hab ▸ (heq b hmb).symm ▸ hb) (hnew a hma)
  · exact absurd (hab.symm ▸ (heq a hma).symm ▸ ha) (hnew b hmb)
  · rw [← heq a hma, hab, heq b hmb]

theorem copiesUnder_of_copyEnsure (hne : frame.instrs ≠ []) (hframe : s.Defined frame)
    (h : s.Runs (copyEnsure frame) v t) : ∃ ρ, s.CopiesUnder t frame ρ := by
  obtain ⟨ρ, u, hρ, hsep, hlabels, htemps, hlays⟩ := lays_of_copyEnsure hne h
  have hlabel : ∀ l, l = frame.bodyStart ∨ .label l ∈ frame.instrs →
      ¬ s.PastLabel (ρ.label l) ∧ t.PastLabel (ρ.label l) := by
    intro l hl
    obtain ⟨hstem, hge, hlt⟩ := hρ.label_new l hl
    exact ⟨fun hpast => absurd (hpast hstem) (Nat.not_lt.mpr hge), fun _ => hlt.trans_le hlabels⟩
  have hvar : ∀ v, ρ.hasVar v → ¬ s.PastVar (ρ.var v) ∧ t.PastVar (ρ.var v) := by
    intro v hv
    obtain ⟨htemp, hge, hlt⟩ := hρ.var_new v hv
    exact ⟨fun hpast => absurd (hpast htemp) (Nat.not_lt.mpr hge), fun _ => hlt.trans_le htemps⟩
  have hlabelMoves : ∀ l, ρ.label l ≠ l ↔ l = frame.bodyStart ∨ .label l ∈ frame.instrs := by
    refine fun l => ⟨fun hne => by_contra fun hl => hne (hρ.label_eq l hl), fun hl heq => ?_⟩
    exact (hlabel l hl).1 (heq.symm ▸ hframe.label l hl)
  have hvarKept : ∀ v, ¬ ρ.hasVar v → ρ.var v = v := fun v hv =>
    Renaming.var_of_not_hasVar (Bool.eq_false_iff.mpr hv)
  have hvarMoves : ∀ v, ρ.var v ≠ v ↔ ρ.hasVar v := by
    refine fun v => ⟨fun hne => by_contra fun hv => hne (hvarKept v hv), fun hv heq => ?_⟩
    · obtain ⟨-, i, hi, hresult⟩ := (hρ.hasVar_iff v).mp hv
      exact (hvar v hv).1 (heq.symm ▸ hframe.var i hi v hresult)
  refine ⟨ρ, hlays, hlabelMoves, fun l hl => hlabel l ((hlabelMoves l).mp hl), fun l m => ?_,
    fun v => (hvarMoves v).trans (hρ.hasVar_iff v), fun v hv => hvar v ((hvarMoves v).mp hv),
    fun v w => ?_⟩
  · exact eq_of_moved (fun a ha => (hlabel a ha).1) hρ.label_eq hρ.label_inj
  · exact eq_of_moved (fun a ha => (hvar a ha).1) hvarKept hsep

theorem Ready.works_addClosure {c : ScopeId} (hs : s.Ready) : s.Works (addClosure c) := by
  obtain ⟨x, hx⟩ := hs.scope
  unfold addClosure
  refine works_bind works_current fun hcurrent => ?_
  obtain ⟨rfl, rfl⟩ := runs_current.mp hcurrent
  exact works_liftM (Registry.works_of_runs (a := ()) (Registry.runs_updateScope.mpr ⟨x, hx, rfl⟩))

theorem Ready.works_freshen {ρ : Renaming} {i : Instr} (hs : s.Ready) : s.Works (freshen ρ i) := by
  rw [freshen_eq]
  refine works_bind ?_ fun {σ u} hlabel => ?_
  · unfold freshenLabel
    split
    · exact works_bind hs.works_newLabel fun _ => works_pure
    · exact works_pure
  · have hu := hs.adds (counts_of_freshenLabel hlabel).1.toAdds
    unfold freshenResult
    split
    · split
      · exact works_bind hu.works_temp fun _ => works_pure
      · exact works_pure
    · exact works_pure

theorem Ready.works_foldlM_freshen {ρ : Renaming} {xs : List Instr} (hs : s.Ready) :
    s.Works (xs.foldlM freshen ρ) := by
  induction xs generalizing s ρ with
  | nil => exact works_pure
  | cons i xs ih =>
    exact works_bind hs.works_freshen fun hi => ih (hs.adds (counts_of_freshen hi).toAdds)

/-- A turn of the loop leaves everything ready for the next one. -/
theorem Ready.works_copyInstr {i : Instr} (hs : s.Ready) : s.Works (copyInstr i) := by
  unfold copyInstr
  split
  · refine works_bind hs.works_addClosure fun hclosure => ?_
    have hs := hs.adds (emits_of_addClosure hclosure).toAdds
    exact works_bind (hs.works_emit _) fun _ => works_pure
  · exact works_bind (hs.works_emit _) fun _ => works_pure

theorem Ready.works_copyInstrs {ρ : Renaming} {xs : List Instr} (hs : s.Ready)
    (hsettled : s.Pending []) :
    s.Works (forIn xs PUnit.unit fun i _ => copyInstr (i.rename ρ)) := by
  induction xs generalizing s with
  | nil => exact works_pure
  | cons i xs ih =>
    rw [List.forIn_cons]
    refine works_bind hs.works_copyInstr fun hi => ?_
    obtain ⟨rfl, hu, hsettled⟩ := lays_of_copyInstr hsettled hi
    exact ih (hs.adds hu.toAdds) hsettled

theorem Ready.works_copyEnsure (hs : s.Ready) : s.Works (copyEnsure frame) := by
  unfold copyEnsure
  split
  · exact works_pure
  refine works_bind hs.works_newLabel fun hlabel => ?_
  have hs := hs.adds (counts_of_newLabel hlabel).toAdds
  refine works_bind hs.works_foldlM_freshen fun hfold => ?_
  have hs := hs.adds (counts_of_foldlM_freshen hfold).toAdds
  refine works_bind works_current fun hcurrent => ?_
  obtain ⟨rfl, rfl⟩ := runs_current.mp hcurrent
  refine works_bind works_record fun hrecord => ?_
  have hs := hs.adds (emits_of_record hrecord).toAdds
  refine works_bind (hs.works_emit _) fun hlabel => ?_
  have hs := hs.adds (emits_of_emit hlabel).toAdds
  obtain ⟨_, -, -, hsettled⟩ := lays_of_emit hlabel
  refine works_bind (hs.works_emit _) fun hstart => ?_
  have hs := hs.adds (emits_of_emit hstart).toAdds
  obtain ⟨-, hsettled⟩ := lays_of_emit_settled hstart hsettled
  refine works_bind (hs.works_copyInstrs hsettled) fun hbody => ?_
  exact (hs.adds (lays_of_copyInstrs hsettled hbody).1.toAdds).works_emit _

end Session

/-- Both place one label, or both write one temporary. -/
def Share (xs ys : List Instr) : Prop :=
  (∃ l, .label l ∈ xs ∧ .label l ∈ ys) ∨
    ∃ v, v.isTemp ∧ (∃ i ∈ xs, i.result? = some v) ∧ ∃ i ∈ ys, i.result? = some v

/-- The body as it is emitted at its own place. -/
def EnsureFrame.original (frame : EnsureFrame) : List Instr := .label frame.bodyStart :: frame.instrs

namespace Session

variable {s t u v : Session} {frame frame' : EnsureFrame} {ρ ρ' : Renaming}

theorem PastLabel.later {l : Label} (h : s.PastLabel l) (hlabels : s.labels ≤ t.labels) :
    t.PastLabel l := fun hstem => (h hstem).trans_le hlabels

theorem PastVar.later {w : Variable} (h : s.PastVar w) (htemps : s.temps ≤ t.temps) :
    t.PastVar w := fun htemp => (h htemp).trans_le htemps

namespace CopiesUnder

theorem label_of_mem_copy {l : Label} (h : s.CopiesUnder t frame ρ) (hl : .label l ∈ frame.copy ρ) :
    ¬ s.PastLabel l ∧ t.PastLabel l := by
  have hnew : ∀ m, m = frame.bodyStart ∨ .label m ∈ frame.instrs →
      ¬ s.PastLabel (ρ.label m) ∧ t.PastLabel (ρ.label m) :=
    fun m hm => h.label_new m ((h.label_moves m).mpr hm)
  simp only [EnsureFrame.copy, List.cons_append, List.mem_cons, List.mem_append, List.mem_map,
    Instr.label.injEq, reduceCtorEq, List.not_mem_nil, or_false, false_or] at hl
  rcases hl with rfl | ⟨i, hi, hil⟩
  · exact hnew _ (.inl rfl)
  · cases i with
    | label m =>
      obtain rfl := Instr.label.inj hil
      exact hnew m (.inr hi)
    | _ => cases hil

theorem var_of_mem_copy {w : Variable} {i : Instr} (h : s.CopiesUnder t frame ρ)
    (hw : w.isTemp) (hi : i ∈ frame.copy ρ) (hiw : i.result? = some w) :
    ¬ s.PastVar w ∧ t.PastVar w := by
  simp only [EnsureFrame.copy, List.cons_append, List.mem_cons, List.mem_append, List.mem_map,
    List.not_mem_nil, or_false] at hi
  rcases hi with rfl | rfl | ⟨j, hj, rfl⟩ | rfl
  · cases hiw
  · cases hiw
  · rw [Instr.result?_rename] at hiw
    obtain ⟨x, hx, rfl⟩ := Option.map_eq_some_iff.mp hiw
    -- a variable that is no temporary keeps its name, so it is none in the copy either
    refine h.var_new x ((h.var_moves x).mpr ⟨?_, j, hj, hx⟩)
    by_contra hnot
    have hkept : ρ.var x = x := by_contra fun hne => hnot ((h.var_moves x).mp hne).1
    exact hnot (hkept ▸ hw)
  · cases hiw

/-- A copy and one that is made later share nothing. -/
theorem not_share (h : s.CopiesUnder t frame ρ) (h' : u.CopiesUnder v frame' ρ')
    (hlabels : t.labels ≤ u.labels) (htemps : t.temps ≤ u.temps) :
    ¬ Share (frame.copy ρ) (frame'.copy ρ') := by
  rintro (⟨l, hl, hl'⟩ | ⟨w, hw, ⟨i, hi, hiw⟩, j, hj, hjw⟩)
  · exact (h'.label_of_mem_copy hl').1 ((h.label_of_mem_copy hl).2.later hlabels)
  · exact (h'.var_of_mem_copy hw hj hjw).1 ((h.var_of_mem_copy hw hi hiw).2.later htemps)

theorem not_share_original (h : s.CopiesUnder t frame ρ) (hframe : s.Defined frame) :
    ¬ Share (frame.copy ρ) frame.original := by
  rintro (⟨l, hl, hl'⟩ | ⟨w, hw, ⟨i, hi, hiw⟩, j, hj, hjw⟩)
  · refine (h.label_of_mem_copy hl).1 (hframe.label l ?_)
    simpa only [EnsureFrame.original, List.mem_cons, Instr.label.injEq] using hl'
  · refine (h.var_of_mem_copy hw hi hiw).1 ?_
    rcases List.mem_cons.mp hj with rfl | hj
    · cases hjw
    · exact hframe.var j hj w hjw

end CopiesUnder

/-- A body all definitions of which were handed out before is copied unless a number leaves its word.
The copy is the body under one renaming, which is injective on what was handed out, moves what the
body defines and nothing else, and moves it to names that were never handed out. So no two copies
share a definition with each other or with the original. -/
theorem copiesUnder_of_defined (hs : s.Ready) (hne : frame.instrs ≠ []) (hframe : s.Defined frame) :
    (∃ t, copyEnsure frame s = (.error .overflow, t)) ∨
    ∃ t ρ new, s.Runs (copyEnsure frame) () t ∧ s.CopiesUnder t frame ρ ∧
      ¬ Share (frame.copy ρ) frame.original ∧
      (∀ {u v : Session} {frame' : EnsureFrame} {ρ' : Renaming}, t.labels ≤ u.labels →
        t.temps ≤ u.temps → u.CopiesUnder v frame' ρ' → ¬ Share (frame.copy ρ) (frame'.copy ρ')) ∧
      t.closures = s.closures ++ new ∧ new.Nodup ∧
        ∀ c, c ∈ new ↔ (∃ i ∈ frame.instrs, i.closure? = some c) ∧ c ∉ s.closures := by
  have hworks : s.Works (copyEnsure frame) := hs.works_copyEnsure
  rcases hworks with ⟨⟨⟩, t, hr⟩ | hoverflow
  · obtain ⟨ρ, hρ⟩ := copiesUnder_of_copyEnsure hne hframe hr
    obtain ⟨_, -, hlays⟩ := hρ.lays
    obtain ⟨new, hnew, hnodup, hmem⟩ :=
      exists_joined s.closures (frame.instrs.filterMap Instr.closure?)
    refine .inr ⟨t, ρ, new, hr, hρ, hρ.not_share_original hframe,
      fun hlabels htemps h => hρ.not_share h hlabels htemps, hlays.closures.trans hnew, hnodup, ?_⟩
    simpa only [List.mem_filterMap] using hmem
  · exact .inl hoverflow

/-- A body with a loop in it, all names of which were just handed out. -/
def bodyWithLoop : SessionM EnsureFrame := do
  let frame ← newEnsure
  let again ← newLabel
  let a ← temp
  let b ← temp
  return { frame with instrs := [.label again, .copy a (.var b), .copy b (.var a), .jump again] }

theorem copiesUnder_of_defined_bodyWithLoop : ∃ frame s,
    (single .method).Runs bodyWithLoop frame s ∧ s.Ready ∧ s.Defined frame ∧
    ∃ t ρ new, s.Runs (copyEnsure frame) () t ∧ s.CopiesUnder t frame ρ ∧
      ¬ Share (frame.copy ρ) frame.original ∧
      (∀ {u v : Session} {frame' : EnsureFrame} {ρ' : Renaming}, t.labels ≤ u.labels →
        t.temps ≤ u.temps → u.CopiesUnder v frame' ρ' → ¬ Share (frame.copy ρ) (frame'.copy ρ')) ∧
      t.closures = s.closures ++ new ∧ new.Nodup ∧
        ∀ c, c ∈ new ↔ (∃ i ∈ frame.instrs, i.closure? = some c) ∧ c ∉ s.closures := by
  let frame : EnsureFrame := ⟨⟨"LBL", 0⟩, ⟨"LBL", 1⟩, ⟨"LBL", 2⟩, ⟨"LBL", 3⟩, .unrescued, none,
    [.label ⟨"LBL", 4⟩, .copy (.temp (.plain 0)) (.var (.temp (.plain 1))),
      .copy (.temp (.plain 1)) (.var (.temp (.plain 0))), .jump ⟨"LBL", 4⟩]⟩
  have hbody : (bodyWithLoop (single .method)).1 = .ok frame := by decide +kernel
  generalize hs : (bodyWithLoop (single .method)).2 = s
  have hrun : (single .method).Runs bodyWithLoop frame s := hs ▸ runs_of_ok hbody
  have hready : s.Ready := by
    obtain ⟨x, hx, hparent⟩ : ∃ x ∈ s.registry.scope? ⟨0⟩, x.parent = none := by
      rw [← hs]
      decide +kernel
    have hscope : s.builder.scope = ⟨0⟩ ∧ s.builder.borrowsTemps = false := by
      rw [← hs]
      decide +kernel
    have hchain : s.registry.lexicalChain s.builder.scope = .ok [x] := by
      rw [hscope.1, Registry.lexicalChain_eq hx, hparent]
    exact ready_of_ownTemps hscope.2 hchain
  have hlabels : s.labels = 5 := by rw [← hs]; decide +kernel
  have htemps : s.temps = 2 := by rw [← hs]; decide +kernel
  have hframe : s.Defined frame := by
    refine ⟨fun l hl _ => ?_, fun i hi v hv _ => ?_⟩
    · rw [hlabels]
      simp only [frame, List.mem_cons, Instr.label.injEq, reduceCtorEq, List.not_mem_nil, or_false] at hl
      rcases hl with rfl | rfl <;> decide
    · rw [htemps]
      simp only [frame, List.mem_cons, List.not_mem_nil, or_false] at hi
      rcases hi with rfl | rfl | rfl | rfl <;> cases hv <;> decide
  have hok : (copyEnsure frame s).1.isOk := by rw [← hs]; decide +kernel
  rcases copiesUnder_of_defined hready (List.cons_ne_nil _ _) hframe with ⟨t, ht⟩ | h
  · rw [ht] at hok
    cases hok
  · exact ⟨frame, s, hrun, hready, hframe, h⟩

/-- A body whose names belong to the scope that is built first. -/
def bodyOfTwo : EnsureFrame where
  regionStart := ⟨"LBL", 0⟩
  bodyStart := ⟨"LBL", 1⟩
  bodyEnd := ⟨"LBL", 2⟩
  dummyRescue := ⟨"LBL", 3⟩
  rescuer := .unrescued
  innermostLoop := none
  instrs := [.copy (.temp (.plain 1)) (.var (.temp (.plain 0)))]

end Session

namespace Workshop

open Session

/-- The first scope hands out the names, and a builder of it is opened that takes its temporaries from
a builder of the second scope. -/
def borrowing : List Op :=
  [.newScope .method ⟨"m"⟩ "main.rb" 0 none, .newScope .method ⟨"n"⟩ "main.rb" 0 none,
    .openRoot ⟨0⟩, .act 0 .newEnsure, .act 0 .temp, .act 0 .temp, .openRoot ⟨1⟩,
    .openInside 1 ⟨0⟩ true]

/-- A builder that borrows its temporaries can copy a body onto temporaries of its own scope: here
no renaming that makes the copy keeps the two temporaries of the body apart. -/
theorem merges_of_borrowing : ∃ w k t, (Workshop.empty {}).run borrowing = some w ∧
    w.worker? 2 = some k ∧ k.builder.scope = ⟨0⟩ ∧ w.registry.labels ⟨0⟩ = 4 ∧
    w.registry.temps ⟨0⟩ = 2 ∧ (w.session k).Runs (copyEnsure bodyOfTwo) () t ∧
    t.builder.instrs.toList = [.label ⟨"LBL", 4⟩, .regionStart .unrescued,
      .copy (.temp (.plain 0)) (.var (.temp (.plain 0))), .regionEnd] ∧
    ∀ ρ, t.builder.instrs.toList = bodyOfTwo.copy ρ →
      ρ.var (.temp (.plain 0)) = ρ.var (.temp (.plain 1)) := by
  have hrun : ((Workshop.empty {}).run borrowing).isSome := by decide +kernel
  obtain ⟨w, hw⟩ := Option.isSome_iff_exists.mp hrun
  have hfacts : ∀ v ∈ (Workshop.empty {}).run borrowing, ∃ k ∈ v.worker? 2,
      k.builder.scope = ⟨0⟩ ∧ v.registry.labels ⟨0⟩ = 4 ∧ v.registry.temps ⟨0⟩ = 2 ∧
      (copyEnsure bodyOfTwo (v.session k)).1 = .ok () ∧
      (copyEnsure bodyOfTwo (v.session k)).2.builder.instrs.toList = [.label ⟨"LBL", 4⟩,
        .regionStart .unrescued, .copy (.temp (.plain 0)) (.var (.temp (.plain 0))), .regionEnd] := by
    decide +kernel
  obtain ⟨k, hk, hscope, hlabels, htemps, hok, hinstrs⟩ := hfacts w hw
  refine ⟨w, k, _, hw, hk, hscope, hlabels, htemps, runs_of_ok hok, hinstrs, fun ρ hρ => ?_⟩
  rw [hinstrs] at hρ
  simp only [bodyOfTwo, EnsureFrame.copy, List.map_cons, List.map_nil, Instr.rename,
    Renaming.operand, Operand.mapVars, List.cons_append, List.nil_append, List.cons.injEq,
    Instr.copy.injEq, Operand.var, Operand.atom.injEq, Atom.var.injEq] at hρ
  obtain ⟨-, -, ⟨hwritten, hread⟩, -⟩ := hρ
  exact hread.symm.trans hwritten

end Workshop

end ScopeIR
