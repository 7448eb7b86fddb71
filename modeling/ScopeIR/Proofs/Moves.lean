import ScopeIR.Proofs.Acts
import ScopeIR.Proofs.Steps

/-! What one operation does to a workshop: the scopes that it adds, what it builds, and how it
finishes a scope. -/

namespace ScopeIR

/-- `y` is `x` at a later time, but it was not finished in between. -/
structure Scope.Lasts (x y : Scope) : Prop where
  id : y.id = x.id
  kind : y.kind = x.kind
  parent : y.parent = x.parent
  flags : y.flags = x.flags
  instrs : y.instrs = x.instrs
  closures : x.closures ⊆ y.closures

/-- Nothing was built for the scope. -/
structure Scope.Blank (x : Scope) : Prop where
  flags : x.flags = x.kind.initialFlags
  instrs : x.instrs = none

namespace Scope.Lasts

theorem refl (x : Scope) : x.Lasts x := ⟨rfl, rfl, rfl, rfl, rfl, List.Subset.refl _⟩

theorem isFinished_eq {x y : Scope} (h : x.Lasts y) : y.isFinished = x.isFinished := by
  rw [Scope.isFinished, h.flags, Scope.isFinished]

theorem blank {x y : Scope} (h : x.Lasts y) (hx : x.Blank) : y.Blank :=
  ⟨by rw [h.flags, h.kind, hx.flags], h.instrs.trans hx.instrs⟩

end Scope.Lasts

theorem Scope.Blank.not_isFinished {x : Scope} (h : x.Blank) : ¬ x.isFinished := by
  rw [Scope.isFinished, h.flags]
  cases x.kind <;> decide

namespace Registry

variable {g g' : Registry} {id : ScopeId}

/-- `g'` is `g` at a later time, but no scope was finished in between. A new scope has its number,
and a new closure joined the closures of its parent. -/
structure Lasts (g g' : Registry) : Prop where
  old {id : ScopeId} {x : Scope} : g.scope? id = some x → ∃ y, g'.scope? id = some y ∧ x.Lasts y
  new {id : ScopeId} {y : Scope} : g.scope? id = none → g'.scope? id = some y →
    y.Blank ∧ y.id = id ∧ ∀ p, y.parent = some p → p.index < id.index ∧
      ∃ z, g'.scope? p = some z ∧ (y.kind.isClosureLike → id ∈ z.closures)

theorem Serves.lasts (h : g.Serves g') : g.Lasts g' where
  old {id x} hx := by
    obtain ⟨y, hy, hxy⟩ := h.scope hx
    refine ⟨y, hy, ?_, hxy.kind_eq, hxy.parent_eq, ?_, hxy.instrs_eq, h.closures hx hy⟩
    · rw [hxy.same]
    · rw [hxy.same]
  new hx hy := by
    have hlt := (Array.getElem?_eq_some_iff.mp hy).1
    rw [h.size_eq] at hlt
    exact absurd hx (by rw [scope?, Array.getElem?_eq_getElem hlt]; exact Option.some_ne_none _)

theorem Serves.old_of_scope {y : Scope} (h : g.Serves g') (hy : g'.scope? id = some y) :
    ∃ x, g.scope? id = some x ∧ x.Lasts y := by
  have hlt := (Array.getElem?_eq_some_iff.mp hy).1
  rw [h.size_eq] at hlt
  have hx : g.scope? id = some g.scopes[id.index.toNat] := Array.getElem?_eq_getElem hlt
  obtain ⟨y', hy', hxy⟩ := h.lasts.old hx
  obtain rfl := Option.some.inj (hy.symm.trans hy')
  exact ⟨_, hx, hxy⟩

theorem lasts_of_record {e : Event} {u : Unit} (h : g.Runs (RegistryM.record e) u g') :
    g.Lasts g' := (serves_of_record h).lasts

theorem lasts_of_setRefined {refined : Bool} {u : Unit}
    (h : g.Runs (RegistryM.setRefined id refined) u g') : g.Lasts g' := by
  obtain ⟨x, hx, rfl⟩ := runs_updateScope.mp h
  have hne : ∀ {id'}, id' ≠ id → (g.setScope id { x with refined }).scope? id' = g.scope? id' :=
    scope?_setScope_ne
  constructor
  · intro id' x' hx'
    by_cases hid : id' = id
    · subst hid
      obtain rfl := Option.some.inj (hx.symm.trans hx')
      exact ⟨_, scope?_setScope_self hx, rfl, rfl, rfl, rfl, rfl, List.Subset.refl _⟩
    · exact ⟨x', (hne hid).trans hx', .refl x'⟩
  · intro id' y hnone hy
    have hid : id' ≠ id := by
      rintro rfl
      cases hx.symm.trans hnone
    cases hnone.symm.trans ((hne hid).symm.trans hy)

theorem serves_nextClosureId (g : Registry) (next : UInt64) :
    g.Serves { g with nextClosureId := next } := by
  refine ⟨⟨⟨rfl, fun h => ⟨_, h, .refl _⟩⟩, rfl⟩, fun hx hy => ?_⟩
  obtain rfl := Option.some.inj (hx.symm.trans hy)
  exact List.Subset.refl _

section NewScope

variable {kind : ScopeKind} {parent : Option ScopeId} {refined : Bool}

theorem Adopts.serves (h : g.Adopts kind id parent refined g') : g.Serves g' := by
  cases h with
  | root | apart => exact .refl g
  | closure hx => exact .setScope hx ⟨rfl, le_rfl, le_rfl⟩ (List.subset_append_left _ _)

theorem Adopts.parent_eq (h : g.Adopts kind id parent refined g') {p : ScopeId}
    (hp : parent = some p) :
    ∃ z, g'.scope? p = some z ∧ (kind.isClosureLike → id ∈ z.closures) := by
  cases h with
  | root => cases hp
  | closure hx hkind =>
    obtain rfl := Option.some.inj hp
    refine ⟨_, scope?_setScope_self hx, fun _ => ?_⟩
    exact List.mem_append_right _ (List.mem_singleton_self _)
  | apart hx hkind =>
    obtain rfl := Option.some.inj hp
    exact ⟨_, hx, fun h => absurd h hkind⟩

/-- A scope comes behind those of `g`, where its parent may have gained it. -/
theorem lasts_extended {w : Registry} {x : Scope} (hid : x.id.index.toNat = g.scopes.size)
    (hw : g.Serves w) (hblank : x.Blank) (hparent : ∀ p, x.parent = some p →
      ∃ z, w.scope? p = some z ∧ (x.kind.isClosureLike → x.id ∈ z.closures)) :
    g.Lasts (w.extended x) := by
  have hself : (w.extended x).scope? x.id = some x :=
    scope?_extended_self (hid.trans hw.size_eq.symm)
  constructor
  · intro id y hy
    obtain ⟨z, hz, hyz⟩ := hw.lasts.old hy
    exact ⟨z, scope?_extended_of_some hz, hyz⟩
  · intro id y hnew hy
    -- what was not there before is the new scope
    have hidn : id = x.id := by
      have hlt := (Array.getElem?_eq_some_iff.mp hy).1
      simp only [extended, Array.size_push, hw.size_eq] at hlt
      have hge : g.scopes.size ≤ id.index.toNat := Array.getElem?_eq_none_iff.mp hnew
      have heq : id.index.toNat = x.id.index.toNat := by omega
      exact congrArg ScopeId.mk (UInt64.toNat_inj.mp heq)
    subst hidn
    obtain rfl := Option.some.inj (hself.symm.trans hy)
    refine ⟨hblank, rfl, fun p hp => ?_⟩
    obtain ⟨z, hz, hclosures⟩ := hparent p hp
    have hlt := (Array.getElem?_eq_some_iff.mp hz).1
    refine ⟨?_, z, scope?_extended_of_some hz, hclosures⟩
    rwa [UInt64.lt_iff_toNat_lt, hid, ← hw.size_eq]

theorem lasts_of_newScope {name : Symbol} {file : String} {line : Int32}
    (h : g.Runs (RegistryM.newScope kind name file line parent) id g') : g.Lasts g' := by
  obtain ⟨next, closureId, refined, w, hid, -, -, hw, rfl⟩ := eq_of_newScope h
  exact lasts_extended hid ((serves_nextClosureId g next).trans hw.serves) ⟨rfl, rfl⟩
    fun _ hp => hw.parent_eq hp

end NewScope

end Registry

namespace Builder

theorem contains_foldl {α : Type} (flags : α → ScopeFlags) (xs : List α) (start : ScopeFlags)
    (f : ScopeFlag) :
    (xs.foldl (fun s x => s ∪ flags x) start).contains f ↔
      start.contains f ∨ ∃ x ∈ xs, (flags x).contains f := by
  induction xs generalizing start with
  | nil => simp only [List.foldl_nil, List.not_mem_nil, false_and, exists_false, or_false]
  | cons x xs ih =>
    rw [List.foldl_cons, ih, FlagSet.contains_union, Bool.or_eq_true, List.exists_mem_cons_iff,
      or_assoc]

section Final

variable (b : Builder) (closures : List Scope) (f : ScopeFlag)

theorem contains_finalFlags (hdynscope : f ≠ .requiresDynscope) (hcomputed : f ≠ .flagsComputed) :
    (b.finalFlags closures).contains f ↔ b.flags.contains f ∨
      (∃ i ∈ b.instrs.toList, i.scopeFlags.contains f) ∨
      ∃ c ∈ closures, (closureFlags c).contains f := by
  simp only [finalFlags, FlagSet.contains_union, FlagSet.contains_singleton, Bool.or_eq_true,
    or_iff_left hcomputed.symm]
  split
  · simp only [FlagSet.contains_union, FlagSet.contains_singleton, Bool.or_eq_true,
      or_iff_left hdynscope.symm, contains_foldl, ← Array.foldl_toList, or_assoc]
  · simp only [contains_foldl, ← Array.foldl_toList, or_assoc]

theorem flagsComputed_finalFlags : (b.finalFlags closures).contains .flagsComputed := by
  simp only [finalFlags, FlagSet.contains_union, FlagSet.contains_singleton, Bool.or_eq_true,
    or_true]

/-- A scope that nonlocal returns may arrive in keeps its variables in a dynamic scope. -/
theorem requiresDynscope_finalFlags
    (h : (b.finalFlags closures).contains .canReceiveNonlocalReturns) :
    (b.finalFlags closures).contains .requiresDynscope := by
  simp only [finalFlags, FlagSet.contains_union, FlagSet.contains_singleton, Bool.or_eq_true,
    reduceCtorEq, or_false] at h ⊢
  split
  · simp only [FlagSet.contains_union, FlagSet.contains_singleton, Bool.or_eq_true, or_true]
  · next hneeds =>
    rw [if_neg hneeds] at h
    refine absurd ?_ hneeds
    exact List.any_eq_true.mpr ⟨_, by decide, h⟩

end Final

theorem closureFlags_congr {x y : Scope} (h : x.flags = y.flags) :
    closureFlags x = closureFlags y := by
  unfold closureFlags
  rw [h]

/-- Only these flags of a scope may come from its closures. -/
theorem contains_closureFlags (x : Scope) (f : ScopeFlag) :
    (closureFlags x).contains f ↔
      f = .canReceiveBreaks ∧ (x.flags.contains .usesEval ∨ x.flags.contains .hasBreakInstrs ∨
        x.flags.contains .canReceiveBreaks) ∨
      f = .canReceiveNonlocalReturns ∧ (x.flags.contains .usesEval ∨
        x.flags.contains .hasNonlocalReturns ∨ x.flags.contains .canReceiveNonlocalReturns) ∨
      f = .usesZSuper ∧ (x.flags.contains .usesEval ∨ x.flags.contains .usesZSuper) := by
  have hite : ∀ (p : Prop) [Decidable p] (g : ScopeFlag),
      (if p then {g} else ∅ : ScopeFlags).contains f ↔ f = g ∧ p := by
    intro p _ g
    by_cases hp : p
    · simp only [hp, reduceIte, FlagSet.contains_singleton, and_true, eq_comm (a := g)]
    · simp only [hp, reduceIte, FlagSet.contains_empty, Bool.false_eq_true, and_false]
  unfold closureFlags
  dsimp only
  split
  · next heval =>
    simp only [heval, true_or, and_true, FlagSet.contains_insert, FlagSet.contains_singleton,
      eq_comm (b := f)]
  · next heval =>
    simp only [heval, Bool.false_eq_true, false_or, FlagSet.contains_union, Bool.or_eq_true,
      hite, or_assoc]

end Builder

namespace Session

variable {s t : Session} {id : ScopeId}

/-- The scope was finished with the list of `u`, which is that of `s` but for a load of the block. -/
structure Completes (s u : Session) (id : ScopeId) (x : Scope) (flags : ScopeFlags) : Prop where
  id_eq : id = s.builder.scope
  writes {P : Instr → Prop} : (∀ v, P (.loadImplicitClosure v)) → s.Writes P False u
  scope : u.registry.scope? id = some x
  unfinished : ¬ x.isFinished
  flagsComputed : flags.contains .flagsComputed
  dynscope : flags.contains .canReceiveNonlocalReturns → flags.contains .requiresDynscope
  flags {f : ScopeFlag} : f ≠ .requiresDynscope → f ≠ .flagsComputed → (flags.contains f ↔
    (u.builder.flags.contains f ∨ x.flags.contains f) ∨
      (∃ i ∈ u.builder.instrs.toList, i.scopeFlags.contains f) ∨
      ∃ c ∈ x.closures, ∃ y, u.registry.scope? c = some y ∧ (Builder.closureFlags y).contains f)

theorem Completes.serves {u : Session} {x : Scope} {flags : ScopeFlags}
    (h : s.Completes u id x flags) : s.registry.Serves u.registry :=
  (h.writes (P := fun _ => True) fun _ => trivial).registry

theorem does_loadBlock {P : Instr → Prop} (hP : ∀ v, P (.loadImplicitClosure v)) {b : Builder} :
    s.Does P (loadBlock b) := (touching_loadBlock hP).writes

theorem completes_of_finish (h : s.Runs finish id t) :
    ∃ u x flags, s.Completes u id x flags ∧
      t.registry = u.registry.setScope id { x with instrs := some u.builder.instrs.toList, flags } := by
  obtain ⟨x, u, hx, hunfinished, -, hload, hstore⟩ := runs_finish h
  have hwrites : ∀ {P : Instr → Prop}, (∀ v, P (.loadImplicitClosure v)) → s.Writes P False u := by
    intro P hP
    have hdoes : s.Does P (loadBlock s.builder) := does_loadBlock hP
    rwa [Does, hload] at hdoes
  have hu := hwrites (P := fun _ => True) fun _ => trivial
  obtain ⟨y, closures, flags, hy, hclosures, rfl, rfl, rfl⟩ := runs_storeFinal hstore
  have hflags : y.flags = x.flags := by
    obtain ⟨y', hy', hxy⟩ := hu.registry.lasts.old hx
    rw [hu.scope, hy', Option.some.injEq] at hy
    rw [← hy, hxy.flags]
  let g := u.registry.recorded (.scopeFinished u.builder.scope u.builder.instrs.size
    ((u.builder.insertFlags x.flags).finalFlags closures))
  have hserves : u.registry.Serves g :=
    Registry.serves_recorded _ _
  refine ⟨{ u with registry := g }, y, (u.builder.insertFlags x.flags).finalFlags closures,
    ⟨hu.scope, fun hP => (hwrites hP).andThen (.of_registry hserves), hy, ?_,
      Builder.flagsComputed_finalFlags _ _, Builder.requiresDynscope_finalFlags _ _, ?_⟩, rfl⟩
  · rwa [Scope.isFinished, hflags]
  · intro f hdynscope hcomputed
    rw [Builder.contains_finalFlags _ _ _ hdynscope hcomputed, Builder.insertFlags,
      FlagSet.contains_union, Bool.or_eq_true, hflags]
    refine or_congr_right (or_congr_right ?_)
    constructor
    · rintro ⟨c, hc, hf⟩
      obtain ⟨id, hid, hid'⟩ := (Registry.mem_iff_of_map_scope? hclosures).mp hc
      exact ⟨id, hid, c, hid', hf⟩
    · rintro ⟨id, hid, c, hc, hf⟩
      exact ⟨c, (Registry.mem_iff_of_map_scope? hclosures).mpr ⟨id, hid, hc⟩, hf⟩

section Failing

variable {α β : Type}

/-- If the action fails, it has finished no scope. -/
def FailsServing (s : Session) (x : SessionM α) : Prop :=
  ∀ e t, x s = (.error e, t) → s.registry.Serves t.registry

theorem failsServing_bind {x : SessionM α} {f : α → SessionM β}
    (hx : s.registry.Serves (x s).2.registry)
    (hf : ∀ {a t}, s.Runs x a t → t.FailsServing (f a)) : s.FailsServing (x >>= f) := by
  intro e t he
  rw [bind_apply] at he
  rcases hr : x s with ⟨e' | a, u⟩ <;> rw [hr] at hx he
  · cases he
    exact hx
  · exact hx.trans (hf hr e t he)

theorem eq_of_failed_liftM {x : RegistryM α} {e : Fault}
    (h : (liftM x : SessionM α) s = (.error e, t)) : t = s := by
  rw [liftM_apply] at h
  rcases hr : x s.registry with e' | ⟨a, g⟩ <;> rw [hr] at h
  · exact (Prod.mk.inj h).2.symm
  · cases h

theorem failsServing_storeFinal {flags : ScopeFlags} : s.FailsServing (storeFinal flags) := by
  refine failsServing_bind (.refl _) fun _ => failsServing_bind (.refl _) fun _ => ?_
  refine failsServing_bind touching_ownScope.serves fun _ => ?_
  refine failsServing_bind touching_mapM_scope.serves fun _ => ?_
  refine failsServing_bind (touching_record rfl).serves fun _ e t he => ?_
  rw [bind_apply] at he
  split at he
  · cases he
  · next hstore =>
    cases he
    rw [eq_of_failed_liftM hstore]
    exact .refl _

theorem failsServing_finish : s.FailsServing finish := by
  have hthrow : ∀ {u : Session} {e : Fault}, u.FailsServing (throw e : SessionM ScopeId) := by
    intro u _ _ _ he
    cases he
    exact .refl _
  rw [finish_eq]
  refine failsServing_bind (.refl _) fun {b _} _ => ?_
  refine failsServing_bind touching_ownScope.serves fun _ => ?_
  split
  · exact hthrow
  split
  · exact hthrow
  exact failsServing_bind (touching_loadBlock fun _ => trivial).serves fun _ =>
    failsServing_storeFinal

end Failing

end Session

/-- Nothing is built with the builder of the scope, and no construct is open. -/
structure Builder.Unused (b : Builder) (x : Scope) : Prop where
  instrs : b.instrs = #[]
  flags : b.flags = x.kind.initialFlags
  ensures : b.ensures = []
  ensureBodies : b.ensureBodies = []

theorem Session.unused_of_openBuilder {g g' : Registry} {id : ScopeId} {borrowsTemps : Bool}
    {coverage : Coverage} {b : Builder} (h : g.Runs (openBuilder id borrowsTemps coverage) b g') :
    g.Lasts g' ∧ ∃ x, g'.scope? b.scope = some x ∧ b.Unused x := by
  obtain ⟨x, hx, rfl, rfl⟩ := eq_of_openBuilder h
  exact ⟨Registry.lasts_of_record (u := ()) (Registry.runs_record.mpr rfl), x, hx, rfl, rfl, rfl, rfl⟩

namespace Workshop

open Session

/-- What one operation does. -/
inductive Moves (w : Workshop) : Op → Workshop → Prop
  | manages {op : Op} {g : Registry} : w.registry.Lasts g → Moves w op { w with registry := g }
  | opens {op : Op} {g : Registry} {b : Builder} {x : Scope} {outer : List Nat} :
    w.registry.Lasts g → g.scope? b.scope = some x → b.Unused x →
      Moves w op (addWorker { w with registry := g } ⟨b, outer, false⟩)
  | acts {place : Nat} {k : Worker} {act : Act} {v : Option Unit} {t : Session} :
    w.worker? place = some k → settled act.run (w.session k) = some (v, t) →
      Moves w (.act place act)
        { w.setWorker place (some { k with
            builder := t.builder
            refused := k.refused || act.refuses (w.session k) }) with
          registry := t.registry }
  | finishes {place : Nat} {k : Worker} {u : Session} {id : ScopeId} {x : Scope}
      {flags : ScopeFlags} :
    w.worker? place = some k → (w.session k).Completes u id x flags →
      Moves w (.finish place)
        { w.setWorker place none with
          registry := u.registry.setScope id
            { x with instrs := some u.builder.instrs.toList, flags }
          refusing := (if k.refused then [id] else []) ++ w.refusing }
  | leaves {op : Op} {place : Nat} {g : Registry} :
    w.registry.Serves g → Moves w op { w.setWorker place none with registry := g }

theorem moves_of_step {w w' : Workshop} {op : Op} (h : w.step op = some w') : w.Moves op w' := by
  cases steps_of_step h with
  | newScope hg => exact .manages (Registry.lasts_of_newScope hg)
  | newLabel hg => exact .manages (Registry.serves_of_newLabel hg).lasts
  | nextTemp hg => exact .manages (Registry.serves_of_nextTemp hg).lasts
  | setRefined hg => exact .manages (Registry.lasts_of_setRefined hg)
  | openRoot hg | openInside _ hg =>
    obtain ⟨hlasts, x, hx, hunused⟩ := unused_of_openBuilder hg
    exact .opens hlasts hx hunused
  | act hk ht => exact .acts hk ht
  | @finish _ k _ _ hk ht =>
    unfold settled at ht
    split at ht
    · next id u hfinish =>
      cases ht
      obtain ⟨u, x, flags, hu, hregistry⟩ := completes_of_finish hfinish
      rw [hregistry]
      exact .finishes hk hu
    · next hfinish =>
      cases ht
      have hserves := failsServing_finish _ _ hfinish
      have hrefusing : (if k.refused then (none : Option ScopeId).toList else []) ++ w.refusing =
          w.refusing := by rw [Option.toList_none, ite_self, List.nil_append]
      rw [hrefusing]
      exact .leaves hserves
    · cases ht
  | drop => exact .leaves (.refl _)

end Workshop

end ScopeIR
