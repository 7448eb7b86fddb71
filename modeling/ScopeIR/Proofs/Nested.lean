import ScopeIR.Proofs.Exits
import ScopeIR.Proofs.Finishing

/-! Scopes built inside others: how their builders start, and what finishing stores. -/

namespace ScopeIR

namespace Registry

variable {g g' : Registry} {id : ScopeId}

/-- No scope is added. -/
structure Keeps (g g' : Registry) : Prop extends g.GrowsTo g' where
  size_eq : g'.scopes.size = g.scopes.size

theorem Keeps.refl (g : Registry) : g.Keeps g := ⟨.refl g, rfl⟩

theorem Keeps.trans {g₁ g₂ g₃ : Registry} (h : g₁.Keeps g₂) (h' : g₂.Keeps g₃) : g₁.Keeps g₃ :=
  ⟨h.toGrowsTo.trans h'.toGrowsTo, h'.size_eq.trans h.size_eq⟩

theorem eq_of_takeClosureId {kind : ScopeKind} {closureId : Option UInt64}
    (h : g.Runs (RegistryM.takeClosureId kind) closureId g') :
    closureId = (if kind.isClosureLike then some g.nextClosureId else none) ∧
      ∃ next, g' = { g with nextClosureId := next } ∧
        next.toNat = g.nextClosureId.toNat + if kind.isClosureLike then 1 else 0 := by
  unfold RegistryM.takeClosureId at h
  split at h
  · next hkind =>
    simp only [runs_bind, runs_get, runs_liftM, runs_modify, runs_pure, orOverflow_eq_ok] at h
    obtain ⟨_, _, ⟨rfl, rfl⟩, next, _, ⟨hnext, rfl⟩, _, _, rfl, rfl, rfl⟩ := h
    have hnext := (checkedAdd_eq_some_iff _ _ _).mp hnext
    exact ⟨(if_pos hkind).symm, next, rfl, by rw [if_pos hkind]; exact hnext.symm⟩
  · next hkind =>
    obtain ⟨rfl, rfl⟩ := runs_pure.mp h
    exact ⟨(if_neg hkind).symm, g.nextClosureId, rfl, by rw [if_neg hkind]; rfl⟩

/-- How a new scope comes to its parent: a closure joins those of the parent. -/
inductive Adopts (g : Registry) (kind : ScopeKind) (id : ScopeId) :
    Option ScopeId → (refined : Bool) → Registry → Prop
  | root : g.Adopts kind id none false g
  | closure {p : ScopeId} {x : Scope} : g.scope? p = some x → kind.isClosureLike →
    g.Adopts kind id (some p) x.refined (g.setScope p { x with closures := x.closures ++ [id] })
  | apart {p : ScopeId} {x : Scope} : g.scope? p = some x → ¬ kind.isClosureLike →
    g.Adopts kind id (some p) x.refined g

theorem Adopts.keeps {kind : ScopeKind} {parent : Option ScopeId} {refined : Bool}
    (h : g.Adopts kind id parent refined g') : g.Keeps g' := by
  cases h with
  | root | apart => exact .refl g
  | closure hx => exact ⟨.setScope hx ⟨rfl, le_rfl, le_rfl⟩, Array.size_setIfInBounds⟩

/-- The registry with the scope behind all others. -/
def extended (g : Registry) (x : Scope) : Registry :=
  { g.recorded (.scopeCreated x) with scopes := g.scopes.push x }

theorem growsTo_extended (g : Registry) (x : Scope) : g.GrowsTo (g.extended x) :=
  (g.growsTo_recorded _).trans (.push x)

theorem scope?_extended_self {x : Scope} (h : id.index.toNat = g.scopes.size) :
    (g.extended x).scope? id = some x := by
  rw [scope?, h]
  exact Array.getElem?_push_size

theorem scope?_extended_of_some {x y : Scope} (h : g.scope? id = some y) :
    (g.extended x).scope? id = some y := by
  have hlt := (Array.getElem?_eq_some_iff.mp h).1
  simpa only [extended, scope?, Array.getElem?_push_lt hlt, Array.getElem?_eq_getElem hlt] using h

section NewScope

variable {kind : ScopeKind} {name : Symbol} {file : String} {line : Int32} {parent : Option ScopeId}

/-- The new scope comes after all others. It starts empty, and if it is a closure with a number of
its own. -/
theorem eq_of_newScope (h : g.Runs (RegistryM.newScope kind name file line parent) id g') :
    ∃ next closureId refined w, id.index.toNat = g.scopes.size ∧
      closureId = (if kind.isClosureLike then some g.nextClosureId else none) ∧
      next.toNat = g.nextClosureId.toNat + (if kind.isClosureLike then 1 else 0) ∧
      Adopts { g with nextClosureId := next } kind id parent refined w ∧
      g' = w.extended { id, kind, name, file, line, parent, closures := [], closureId, refined,
                        flags := kind.initialFlags, nextLabel := 0, nextTemp := 0, instrs := none } := by
  simp only [RegistryM.newScope, runs_bind, runs_get] at h
  obtain ⟨g, _, ⟨rfl, rfl⟩, h⟩ := h
  split at h
  · simp only [runs_bind, not_runs_throw, false_and, exists_false] at h
  next hsize =>
  have hid : (⟨g.scopes.size.toUInt64⟩ : ScopeId).index.toNat = g.scopes.size :=
    UInt64.toNat_ofNat_of_lt' (Nat.lt_of_not_le hsize)
  simp only [runs_bind] at h
  obtain ⟨closureId, _, htake, h⟩ := h
  obtain ⟨hclosureId, next, rfl, hnext⟩ := eq_of_takeClosureId htake
  split at h
  · simp only [runs_bind, runs_record, runs_modify, runs_pure] at h
    obtain ⟨_, _, ⟨rfl, rfl⟩, _, _, rfl, _, _, rfl, rfl, rfl⟩ := h
    exact ⟨next, closureId, _, _, hid, hclosureId, hnext, .root, rfl⟩
  · split at h
    · next hkind =>
      simp only [runs_bind, runs_updateScope, runs_scope, runs_record, runs_modify, runs_pure] at h
      obtain ⟨_, _, ⟨x, hx, rfl⟩, y, _, ⟨hy, rfl⟩, _, _, ⟨rfl, rfl⟩, _, _, rfl, _, _, rfl, rfl, rfl⟩ := h
      obtain rfl := Option.some.inj ((scope?_setScope_self hx).symm.trans hy)
      exact ⟨next, closureId, _, _, hid, hclosureId, hnext, .closure hx hkind, rfl⟩
    · next hkind =>
      simp only [runs_bind, runs_scope, runs_record, runs_modify, runs_pure] at h
      obtain ⟨x, _, ⟨hx, rfl⟩, _, _, ⟨rfl, rfl⟩, _, _, rfl, _, _, rfl, rfl, rfl⟩ := h
      exact ⟨next, closureId, _, _, hid, hclosureId, hnext, .apart hx hkind, rfl⟩

theorem runs_newScope (h : g.Runs (RegistryM.newScope kind name file line parent) id g') :
    g.GrowsTo g' ∧ id.index.toNat = g.scopes.size ∧
      ∃ x, g'.scope? id = some x ∧ x.kind = kind ∧ x.parent = parent := by
  obtain ⟨next, closureId, refined, w, hid, -, -, hw, rfl⟩ := eq_of_newScope h
  have hnext : g.GrowsTo { g with nextClosureId := next } := ⟨rfl, fun h => ⟨_, h, .refl _⟩⟩
  refine ⟨(hnext.trans hw.keeps.toGrowsTo).trans (growsTo_extended w _), hid, _, scope?_extended_self ?_, rfl, rfl⟩
  rw [hw.keeps.size_eq, hid]

end NewScope

theorem scope?_eq_none (h : id.index.toNat = g.scopes.size) : g.scope? id = none :=
  Array.getElem?_eq_none h.ge

end Registry

/-- Nothing is open and nothing is built but, perhaps, the label at the start. -/
structure Builder.Fresh (b : Builder) : Prop where
  rescues : b.rescues = []
  ensures : b.ensures = []
  ensureBodies : b.ensureBodies = []
  rescuers : b.rescuers = []
  loops : b.loops = []
  borrowsTemps : b.borrowsTemps = false
  start : b.closureStart = none ∨ b.closureStart = some b.scope.startLabel
  list : b.instrs.toList = b.prologue

/-- The builder that a scope is opened with. -/
structure Builder.Opened (b : Builder) (id : ScopeId) : Prop extends b.Fresh where
  scope : b.scope = id
  line : b.line.pending = none
  methodName : b.methodName = none
  closureStart : b.closureStart = none

namespace Session

variable {s t u : Session} {id : ScopeId}

theorem runs_openBuilder {g g' : Registry} {coverage : Coverage} {b : Builder}
    (h : g.Runs (openBuilder id false coverage) b g') :
    b.Opened id ∧ g.GrowsTo g' ∧ ∃ x, g'.scope? id = some x := by
  obtain ⟨x, hx, rfl, rfl⟩ := eq_of_openBuilder h
  have hg := Registry.growsTo_recorded g (.builderOpened id)
  obtain ⟨y, hy, -⟩ := hg.scope hx
  exact ⟨⟨⟨rfl, rfl, rfl, rfl, rfl, rfl, .inl rfl, rfl⟩, rfl, rfl, rfl, rfl⟩, hg, y, hy⟩

/-- The label at the start is the first instruction of its builder. -/
theorem runs_placeClosureStart {v : Unit} (h : s.Runs placeClosureStart v t)
    (hs : s.builder.Fresh) (hline : s.builder.line.pending = none)
    (hnone : s.builder.closureStart = none) :
    s.registry.GrowsTo t.registry ∧ t.outer = s.outer ∧ t.builder.Fresh ∧
      t.builder.scope = s.builder.scope ∧ t.builder.methodName = s.builder.methodName := by
  have hlist := hs.list
  rw [Builder.prologue, hnone] at hlist
  obtain ⟨_, u, hstart, hemit⟩ := runs_bind.mp h
  obtain ⟨rfl, rfl⟩ := runs_newClosureStart.mp hstart
  obtain ⟨u, hflush, rfl⟩ := (runs_emit_list (by exact hs.ensureBodies)).mp hemit
  rw [Runs, flushLine_of_none (by exact hline)] at hflush
  cases hflush
  refine ⟨growsTo_announce .., rfl, ⟨hs.rescues, hs.ensures, hs.ensureBodies, hs.rescuers, hs.loops,
    hs.borrowsTemps, .inr rfl, ?_⟩, rfl, rfl⟩
  simp only [announce, Builder.append, Array.toList_push, hlist]
  rfl

/-- A new scope of this kind is at work, which is nested in the one before. -/
structure OpensChild (s t : Session) (kind : ScopeKind) (methodName : Option Symbol) : Prop where
  registry : s.registry.GrowsTo t.registry
  outer : t.outer = s.builder :: s.outer
  fresh : t.builder.Fresh
  methodName : t.builder.methodName = methodName
  own : ∃ x, s.registry.scope? s.builder.scope = some x
  isNew : t.builder.scope.index.toNat = s.registry.scopes.size
  scope : ∃ x, t.registry.scope? t.builder.scope = some x ∧ x.kind = kind ∧
    x.parent = some s.builder.scope

/-- The builder at work was just opened: for a root scope, or for one inside the scope around it. -/
inductive Starts : Session → Prop
  | root {g g' : Registry} {scope : ScopeId} {b : Builder} :
    g.Runs (openRoot scope) b g' → Starts ⟨g', b, []⟩
  | child {s t : Session} {kind : ScopeKind} {methodName : Option Symbol} :
    s.OpensChild t kind methodName → Starts t

theorem opened_of_openRoot {g g' : Registry} {b : Builder} (h : g.Runs (openRoot id) b g') :
    b.Opened id ∧ g.GrowsTo g' ∧ ∃ x, g'.scope? id = some x :=
  runs_openBuilder (runs_openRoot.mp h)

theorem Starts.fresh (h : s.Starts) : s.builder.Fresh := by
  cases h with
  | root hopen => exact (opened_of_openRoot hopen).1.toFresh
  | child hopen => exact hopen.fresh

/-- A root scope of this kind is at work, and there is no other scope. -/
def single (kind : ScopeKind) : Session where
  registry := {
    config := {}
    scopes := #[{
      id := ⟨0⟩, kind, name := ⟨"main"⟩, file := "main.rb", line := 0, parent := none
      closures := [], closureId := none, refined := false, flags := kind.initialFlags
      nextLabel := 0, nextTemp := 0, instrs := none }]
    journal := #[.builderOpened ⟨0⟩] }
  builder := { scope := ⟨0⟩, borrowsTemps := false, flags := kind.initialFlags, coverage := ∅ }
  outer := []

theorem starts_single (kind : ScopeKind) : (single kind).Starts := by
  have hopen : Registry.Runs { (single kind).registry with journal := #[] } (openRoot ⟨0⟩)
      (single kind).builder (single kind).registry := rfl
  exact .root hopen

/-- The method whose block is being built. -/
def naming (s : Session) (method : Option Symbol) : Session :=
  { s with builder := { s.builder with methodName := method } }

end Session

namespace TrailM

open Session

variable {α : Type} {s : Session} {h : Trail} {I : Nesting × Session → Prop}

/-- Back in the scope around a finished one nothing was added. -/
theorem builds_child {kind : ScopeKind} {name : Symbol} {methodName : Option Symbol}
    {body : TrailM Unit} {Q : ScopeId → Session → Trail → List Instr → Prop}
    (H : ∀ {u}, s.OpensChild u kind methodName → body.Builds u h I fun _ _ k _ =>
      ∀ {id t}, s.Emits t [] → t.builder = s.builder → Q id t k []) :
    Builds (BuildT.child kind name methodName body) s h I Q := by
  unfold BuildT.child
  refine Yields.lift_bind fun hcurrent => Yields.lift_bind fun hown => ?_
  obtain ⟨rfl, rfl⟩ := runs_current.mp hcurrent
  obtain ⟨hx, rfl⟩ := runs_ownScope.mp hown
  simp only [liftM_registry, BuildT.inScope]
  refine Yields.lift_bind fun hnew => Yields.lift_bind fun hcurrent => ?_
  obtain ⟨g, hg, rfl⟩ := Session.runs_liftM.mp hnew
  obtain ⟨rfl, rfl⟩ := runs_current.mp hcurrent
  obtain ⟨hg, hid, y, hy, hkind, hparent⟩ := Registry.runs_newScope hg
  refine Yields.lift_bind fun {b _} hopen => Yields.within ?_
  obtain ⟨g', hg', rfl⟩ := Session.runs_liftM.mp hopen
  obtain ⟨hopened, hg', -⟩ := runs_openBuilder hg'
  obtain ⟨z, hz, hyz⟩ := hg'.scope hy
  -- the body starts after its builder was given the name and perhaps placed its start label
  have hbody : ∀ {u : Session}, g'.GrowsTo u.registry → u.outer = s.builder :: s.outer →
      u.builder.Fresh → u.builder.scope = b.scope → u.builder.methodName = methodName →
      Yields (do
        body
        finish) u h I fun id t k =>
          ∃ xs, s.Emits { t with builder := s.builder, outer := s.outer } xs ∧
            Q id { t with builder := s.builder, outer := s.outer } k xs := by
    intro u hu houter hfresh hscope hname
    have hgrows := (hg.trans hg').trans hu
    obtain ⟨x', hx', hzx'⟩ := hu.scope hz
    have hchild : s.OpensChild u kind methodName := by
      refine ⟨hgrows, houter, hfresh, hname, ⟨_, hx⟩, ?_, x', ?_, ?_, ?_⟩
      · rw [hscope, hopened.scope, hid]
      · rw [hscope, hopened.scope, hx']
      · rw [hzx'.kind_eq, hyz.kind_eq, hkind]
      · rw [hzx'.parent_eq, hyz.parent_eq, hparent]
    refine Builds.andThen (H hchild) fun {_ v _ _} hxs H => Yields.lift fun {id w} hfinish => ?_
    obtain ⟨front, hfinish⟩ := finishes_of_finish hfinish
    obtain ⟨g₁, x₁, flags, hg₁, -, hstored⟩ := hfinish.stores
    have hnone : s.registry.scope? id = none := by
      refine Registry.scope?_eq_none ?_
      rw [hfinish.id_eq, hxs.scope, hscope, hopened.scope, hid]
    have hemits : s.Emits { w with builder := s.builder, outer := s.outer } [] := by
      refine .of_registry ?_
      rw [hstored]
      exact .setScope_new (hgrows.trans (hxs.registry.trans hg₁)) hnone
    exact ⟨[], hemits, H hemits rfl⟩
  refine Yields.lift_bind fun hname => ?_
  obtain rfl := runs_updateBuilder.mp hname
  have hfresh := hopened.toFresh
  split
  · refine Yields.lift_bind fun hstart => ?_
    obtain ⟨hu, houter, hfresh, hscope, hname⟩ := runs_placeClosureStart hstart
      ⟨hfresh.rescues, hfresh.ensures, hfresh.ensureBodies, hfresh.rescuers, hfresh.loops,
        hfresh.borrowsTemps, hfresh.start, hfresh.list⟩ hopened.line hopened.closureStart
    exact hbody hu houter hfresh hscope hname
  · exact hbody (.refl _) rfl
      ⟨hfresh.rescues, hfresh.ensures, hfresh.ensureBodies, hfresh.rescuers, hfresh.loops,
        hfresh.borrowsTemps, hfresh.start, hfresh.list⟩ rfl rfl

theorem builds_apart {x : TrailM α} {Q : Unit → Session → Trail → List Instr → Prop}
    (H : x.Builds s { h with handed := [] } I fun _ t k xs =>
      Q () t { k with handed := h.handed } xs) :
    Builds (apart x) s h I Q := by
  unfold apart
  refine Yields.trail_bind (Yields.setHanded_bind (Builds.andThen H fun hxs H => ?_))
  exact Yields.setHanded ⟨_, hxs, H⟩

/-- While a block is built, the builder around it names the method that the block is passed to. -/
theorem builds_block {method : Symbol} {body : TrailM Unit}
    {Q : Operand → Session → Trail → List Instr → Prop}
    (H : ∀ {u}, (s.naming (some method)).OpensChild u .closure (some method) →
      body.Builds u h I fun _ _ k _ =>
        ∀ {id t}, s.Emits t [] → t.builder = s.builder → Q (.closure id) t k []) :
    Builds (BuildT.block method body) s h I Q := by
  unfold BuildT.block
  refine Yields.lift_bind fun hcurrent => Yields.lift_bind fun hname => ?_
  obtain ⟨rfl, rfl⟩ := runs_current.mp hcurrent
  obtain rfl := runs_updateBuilder.mp hname
  refine Yields.attempt_bind (Yields.mono (builds_child (Q := fun id t k xs =>
    xs = [] ∧ t.builder = (s.naming (some method)).builder ∧ ∀ {t'}, s.Emits t' [] →
      t'.builder = s.builder → Q (.closure id) t' k []) fun hopen => ?_) ?_) ?_
  · refine Builds.mono (H hopen) fun _ H _ _ _ ht => ⟨rfl, ht, H⟩
  · rintro id t k ⟨_, ht, rfl, hbuilder, H⟩
    refine Yields.lift_bind fun hrestore => Yields.bind (Yields.pure (Yields.pure ?_))
    have hback : { t with builder := { t.builder with methodName := s.builder.methodName } } =
        { s with registry := t.registry } := by
      rw [hbuilder, ht.outer]
      rfl
    rw [runs_updateBuilder.mp hrestore, hback]
    have hemits : s.Emits { s with registry := t.registry } [] := .of_registry ht.registry
    exact ⟨[], hemits, H hemits rfl⟩
  · intro e t k
    exact Yields.lift_bind fun _ => Yields.bind Yields.throw

end TrailM

end ScopeIR
