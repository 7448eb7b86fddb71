import ScopeIR.Proofs.Primitives

/-! What a step of building adds to the list at work: the buffer of the innermost ensure body that is
being built, or else the scope's own list, where line numbers may stand in between. -/

namespace ScopeIR

/-- Written on behalf of a noted line. -/
def Instr.isLine : Instr → Bool
  | .lineNumber .. | .tracePoint _ => true
  | _ => false

/-- The instructions that are not there on behalf of lines. -/
def withoutLines (xs : List Instr) : List Instr := xs.filter (!·.isLine)

@[simp] theorem withoutLines_append (xs ys : List Instr) :
    withoutLines (xs ++ ys) = withoutLines xs ++ withoutLines ys := List.filter_append ..

def Variable.index : Variable → Nat
  | .temp t => t.index.toNat
  | _ => 0

theorem Scope.index_temp {x : Scope} {i : UInt64} : (x.temp i).index = i.toNat := by
  unfold temp
  split <;> rfl

namespace Builder

/-- The same loops, rescues, ensures and rescuers are open. -/
structure SameStacks (b c : Builder) : Prop where
  rescues : c.rescues = b.rescues
  ensures : c.ensures = b.ensures
  rescuers : c.rescuers = b.rescuers
  loops : c.loops = b.loops

theorem SameStacks.refl (b : Builder) : b.SameStacks b := ⟨rfl, rfl, rfl, rfl⟩

theorem SameStacks.trans {b c d : Builder} (h : b.SameStacks c) (h' : c.SameStacks d) :
    b.SameStacks d :=
  ⟨h'.rescues.trans h.rescues, h'.ensures.trans h.ensures, h'.rescuers.trans h.rescuers,
    h'.loops.trans h.loops⟩

/-- The label that stands in front of the scope's own list once a jump back needs it. -/
def prologue (b : Builder) : List Instr := (b.closureStart.map Instr.label).toList

end Builder

/-- The frames after `xs` were added to the first one's body. -/
def addToBody (xs : List Instr) : List EnsureFrame → List EnsureFrame
  | [] => []
  | f :: fs => { f with instrs := f.instrs ++ xs } :: fs

@[simp] theorem addToBody_nil (fs : List EnsureFrame) : addToBody [] fs = fs := by
  cases fs with
  | nil => rfl
  | cons f fs => simp only [addToBody, List.append_nil]

theorem addToBody_addToBody (xs ys : List Instr) (fs : List EnsureFrame) :
    addToBody ys (addToBody xs fs) = addToBody (xs ++ ys) fs := by
  cases fs with
  | nil => rfl
  | cons f fs => simp only [addToBody, List.append_assoc]

theorem addToBody_eq_nil {xs : List Instr} {fs : List EnsureFrame} :
    addToBody xs fs = [] ↔ fs = [] := by
  cases fs <;> simp only [addToBody, reduceCtorEq]

namespace Session

/-- Every label made for the scope at work so far has a smaller index. -/
def labels (s : Session) : Nat := s.registry.labels s.builder.scope

/-- Every temporary that could be taken so far has a smaller index. -/
def temps (s : Session) : Nat := s.registry.temps s.tempScope

/-- The builder at work in `s` is still at work in `t`, and `xs` was added to its list. Its loops,
rescues, ensures and rescuers may have changed. -/
structure Adds (s t : Session) (xs : List Instr) : Prop where
  registry : s.registry.GrowsTo t.registry
  outer : t.outer = s.outer
  scope : t.builder.scope = s.builder.scope
  borrowsTemps : t.builder.borrowsTemps = s.builder.borrowsTemps
  methodName : t.builder.methodName = s.builder.methodName
  flags : ∀ f, s.builder.flags.contains f → t.builder.flags.contains f
  nextLoop : s.builder.nextLoop ≤ t.builder.nextLoop
  start : t.builder.closureStart = s.builder.closureStart ∨
    s.builder.closureStart = none ∧ t.builder.closureStart = some s.builder.scope.startLabel
  bodies : t.builder.ensureBodies = addToBody xs s.builder.ensureBodies
  list {ys : List Instr} : withoutLines s.builder.instrs.toList = s.builder.prologue ++ ys →
    withoutLines t.builder.instrs.toList =
      t.builder.prologue ++ ys ++ if s.builder.ensureBodies = [] then withoutLines xs else []

/-- `xs` was added, and the same constructs are open as before. -/
structure Emits (s t : Session) (xs : List Instr) : Prop extends s.Adds t xs where
  sameStacks : s.builder.SameStacks t.builder

namespace Adds

variable {s t u : Session} {xs ys : List Instr}

theorem trans (h : s.Adds t xs) (h' : t.Adds u ys) : s.Adds u (xs ++ ys) where
  registry := h.registry.trans h'.registry
  outer := h'.outer.trans h.outer
  scope := h'.scope.trans h.scope
  borrowsTemps := h'.borrowsTemps.trans h.borrowsTemps
  methodName := h'.methodName.trans h.methodName
  flags f hf := h'.flags f (h.flags f hf)
  nextLoop := h.nextLoop.trans h'.nextLoop
  start := by
    have hscope := h.scope
    rcases h.start with h₁ | ⟨h₁, h₂⟩ <;> rcases h'.start with h₃ | ⟨h₃, h₄⟩
    · exact .inl (h₃.trans h₁)
    · exact .inr ⟨h₁ ▸ h₃, hscope ▸ h₄⟩
    · exact .inr ⟨h₁, h₃.trans h₂⟩
    · cases h₂.symm.trans h₃
  bodies := by rw [h'.bodies, h.bodies, addToBody_addToBody]
  list hys := by
    have hb : t.builder.ensureBodies = [] ↔ s.builder.ensureBodies = [] := by
      rw [h.bodies, addToBody_eq_nil]
    have ht := h.list hys
    rw [List.append_assoc] at ht
    rw [h'.list ht]
    by_cases hs : s.builder.ensureBodies = []
    · simp only [hs, hb.mpr hs, reduceIte, withoutLines_append, List.append_assoc]
    · simp only [hs, mt hb.mp hs, reduceIte, List.append_nil]

theorem tempScope_eq (h : s.Adds t xs) : t.tempScope = s.tempScope := by
  unfold tempScope
  rw [h.outer]
  cases s.outer with
  | nil => exact h.scope
  | cons p outer =>
    simp only [Builder.tempOwner, h.borrowsTemps]
    split
    · rfl
    · exact h.scope

theorem labels_le (h : s.Adds t xs) : s.labels ≤ t.labels := by
  unfold labels
  rw [h.scope]
  exact h.registry.labels_le _

theorem temps_le (h : s.Adds t xs) : s.temps ≤ t.temps := by
  unfold temps
  rw [h.tempScope_eq]
  exact h.registry.temps_le _

/-- A change of the builder that leaves its list alone. -/
theorem of_sameList {b : Builder} {g : Registry} (hg : s.registry.GrowsTo g)
    (hscope : b.scope = s.builder.scope) (htemps : b.borrowsTemps = s.builder.borrowsTemps)
    (hname : b.methodName = s.builder.methodName)
    (hflags : ∀ f, s.builder.flags.contains f → b.flags.contains f)
    (hloop : s.builder.nextLoop ≤ b.nextLoop)
    (hstart : b.closureStart = s.builder.closureStart)
    (hbodies : b.ensureBodies = s.builder.ensureBodies)
    (hlist : b.instrs = s.builder.instrs) : s.Adds { s with registry := g, builder := b } [] where
  registry := hg
  outer := rfl
  scope := hscope
  borrowsTemps := htemps
  methodName := hname
  flags := hflags
  nextLoop := hloop
  start := .inl hstart
  bodies := by rw [addToBody_nil, hbodies]
  list {ys} hys := by
    have hp : b.prologue = s.builder.prologue := by rw [Builder.prologue, hstart, Builder.prologue]
    simpa only [hlist, hp, withoutLines, List.filter_nil, ite_self, List.append_nil] using hys

end Adds

namespace Emits

variable {s t u : Session} {xs ys : List Instr}

theorem trans (h : s.Emits t xs) (h' : t.Emits u ys) : s.Emits u (xs ++ ys) where
  toAdds := h.toAdds.trans h'.toAdds
  sameStacks := h.sameStacks.trans h'.sameStacks

theorem of_registry {g : Registry} (h : s.registry.GrowsTo g) :
    s.Emits { s with registry := g } [] where
  toAdds := .of_sameList h rfl rfl rfl (fun _ => id) le_rfl rfl rfl rfl
  sameStacks := .refl _

theorem refl (s : Session) : s.Emits s [] := of_registry (.refl _)

end Emits


/-- Makes a label that is new to the scope at work. -/
structure MakesLabel (s t : Session) (stem : String) (l : Label) : Prop extends s.Emits t [] where
  stem_eq : l.stem = stem
  ge : s.labels ≤ l.index.toNat
  lt : l.index.toNat < t.labels

/-- Takes a temporary that was not taken before. -/
structure TakesTemp (s t : Session) (v : Variable) : Prop extends s.Emits t [] where
  isTemp : v.isTemp
  ge : s.temps ≤ v.index
  lt : v.index < t.temps

variable {s t : Session}

theorem takesTemp_of_temp {v : Variable} (h : s.Runs temp v t) : s.TakesTemp t v := by
  obtain ⟨n, g, x, hn, hx, rfl, rfl⟩ := runs_temp h
  obtain ⟨hg, hlo, hhi⟩ := Registry.runs_nextTemp hn
  exact ⟨.of_registry hg, rfl, Scope.index_temp ▸ hlo, Scope.index_temp ▸ hhi⟩

theorem makesLabel_of_newLabelNamed {stem : String} {l : Label}
    (h : s.Runs (newLabelNamed stem) l t) : s.MakesLabel t stem l := by
  obtain ⟨g, hl, rfl⟩ := runs_newLabelNamed.mp h
  obtain ⟨hg, hstem, hlo, hhi⟩ := Registry.runs_newLabel hl
  exact ⟨.of_registry hg, hstem, hlo, hhi⟩

theorem makesLabel_of_newLabel {l : Label} (h : s.Runs newLabel l t) : s.MakesLabel t "LBL" l :=
  makesLabel_of_newLabelNamed h

theorem emits_of_insertFlags {flags : ScopeFlags} {v : Unit} (h : s.Runs (insertFlags flags) v t) :
    s.Emits t [] := by
  obtain rfl := runs_updateBuilder.mp h
  refine ⟨.of_sameList (.refl _) rfl rfl rfl ?_ le_rfl rfl rfl rfl, ⟨rfl, rfl, rfl, rfl⟩⟩
  intro f hf
  rw [Builder.insertFlags, FlagSet.contains_union, hf, Bool.true_or]

theorem emits_of_noteLine {line : Int32} {v : Unit} (h : s.Runs (noteLine line) v t) :
    s.Emits t [] := by
  obtain rfl := runs_updateBuilder.mp h
  exact ⟨.of_sameList (.refl _) rfl rfl rfl (fun _ => id) le_rfl rfl rfl rfl, ⟨rfl, rfl, rfl, rfl⟩⟩

theorem emits_of_addClosure {closure : ScopeId} {v : Unit}
    (h : s.Runs (addClosure closure) v t) : s.Emits t [] := by
  obtain ⟨g, hg, rfl⟩ := runs_addClosure.mp h
  exact .of_registry (Registry.growsTo_of_addClosure hg)

theorem emits_of_record {e : Event} {v : Unit}
    (h : s.Runs (liftM (RegistryM.record e)) v t) : s.Emits t [] := by
  obtain ⟨g, hg, rfl⟩ := runs_liftM.mp h
  exact .of_registry (Registry.growsTo_of_record hg)

theorem emits_of_currentModuleVar {v : Variable} (h : s.Runs currentModuleVar v t) :
    s.Emits t [] := by
  obtain ⟨-, rfl⟩ | ⟨-, n, g, hn, rfl, rfl⟩ := runs_currentModuleVar h
  · exact .refl _
  · exact ⟨.of_sameList (Registry.runs_nextTemp hn).1 rfl rfl rfl (fun _ => id) le_rfl rfl rfl rfl,
      ⟨rfl, rfl, rfl, rfl⟩⟩

/-- Outside of ensure bodies an appended instruction joins the list. -/
theorem emits_append {i : Instr} (hs : s.builder.ensureBodies = []) :
    s.Emits (s.announce s.builder.instrs.size i (s.builder.append i)) [i] := by
  refine ⟨⟨growsTo_announce .., rfl, rfl, rfl, rfl, ?_, le_rfl, .inl rfl, ?_, ?_⟩,
    ⟨rfl, rfl, rfl, rfl⟩⟩
  · intro f hf
    simp only [announce, Builder.append, FlagSet.contains_union, hf, Bool.true_or]
  · simp only [announce, Builder.append, hs, addToBody]
  · intro ys hys
    simp only [announce, Builder.append, Array.toList_push, withoutLines_append, hys, hs,
      reduceIte]
    rfl

/-- Lines leave no trace but in the list, where they do not count. -/
theorem emits_append_line {i : Instr} (hi : i.isLine) (hs : s.builder.ensureBodies = []) :
    s.Emits (s.announce s.builder.instrs.size i (s.builder.append i)) [] where
  toAdds :=
    { emits_append hs with
      bodies := by rw [(emits_append hs).bodies, hs, addToBody, addToBody]
      list hys := by
        simpa only [withoutLines, List.filter_cons, hi, Bool.not_true, Bool.false_eq_true,
          reduceIte] using (emits_append (i := i) hs).list hys }
  sameStacks := (emits_append hs).sameStacks

theorem emits_lined (line : Int32) (hs : s.builder.ensureBodies = []) :
    s.Emits (s.lined line) [] := by
  refine @Emits.trans s _ _ [] [] ?_ (emits_append_line rfl hs)
  exact ⟨.of_sameList (.refl _) rfl rfl rfl (fun _ => id) le_rfl rfl rfl rfl, ⟨rfl, rfl, rfl, rfl⟩⟩

theorem emits_of_flushLine {v : Unit} (h : s.Runs flushLine v t)
    (hs : s.builder.ensureBodies = []) : s.Emits t [] := by
  cases flushing_of_flushLine h with
  | idle => exact .refl _
  | plain => exact emits_lined _ hs
  | traced _ _ hmodule =>
    have hu := (emits_lined _ hs).trans (emits_of_currentModuleVar hmodule)
    exact hu.trans (emits_append_line rfl (by rw [hu.bodies, hs]; rfl))

theorem emits_of_emit {i : Instr} {v : Unit} (h : s.Runs (emit i) v t) : s.Emits t [i] := by
  cases hs : s.builder.ensureBodies with
  | cons f fs =>
    obtain rfl := (runs_emit_body hs).mp h
    refine ⟨⟨.refl _, rfl, rfl, rfl, rfl, fun _ => id, le_rfl, .inl rfl, ?_, ?_⟩,
      ⟨rfl, rfl, rfl, rfl⟩⟩
    · simp only [hs, addToBody]
    · intro ys hys
      rw [hs, if_neg (List.cons_ne_nil f fs), List.append_nil]
      exact hys
  | nil =>
    obtain ⟨u, hflush, rfl⟩ := (runs_emit_list hs).mp h
    have hu := emits_of_flushLine hflush hs
    exact hu.trans (emits_append (by rw [hu.bodies, hs, addToBody]))

end Session

end ScopeIR
