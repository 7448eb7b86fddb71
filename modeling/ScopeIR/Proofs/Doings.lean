import ScopeIR.Proofs.EnsureBodies
import ScopeIR.Proofs.Proceeding

/-! Doings: all that can be done in a workshop, by builders and by others that share the registry,
and runs of them in any order. Operations that are given bodies are runs of doings too, as
`ScopeIR.Proofs.Enacting` shows. -/

namespace ScopeIR

namespace Registry

variable {α β : Type} {g : Registry} {id : ScopeId} {P : Fault → Prop}

theorem blames_throw {e : Fault} (h : P e) : g.Blames P (throw e : RegistryM α) := fun _ he => by
  cases he
  exact h

theorem blames_modify {f : Registry → Registry} : g.Blames P (modify f : RegistryM Unit) :=
  blames_of_runs (a := ()) (runs_modify.mpr rfl)

theorem blames_pure {a : α} : g.Blames P (pure a : RegistryM α) :=
  blames_of_runs (runs_pure.mpr ⟨rfl, rfl⟩)

theorem blames_get_bind {f : Registry → RegistryM β} (hf : g.Blames P (f g)) :
    g.Blames P (get >>= f) := by
  refine blames_bind (blames_of_runs (runs_get.mpr ⟨rfl, rfl⟩)) fun hget => ?_
  obtain ⟨rfl, rfl⟩ := runs_get.mp hget
  exact hf

theorem blames_takeClosureId {kind : ScopeKind} (hfull : g.Full → P .overflow) :
    g.Blames P (RegistryM.takeClosureId kind) := by
  unfold RegistryM.takeClosureId
  split
  · refine blames_get_bind ?_
    refine blames_bind (blames_checkedAdd fun hend => hfull (.inr (.inl hend))) fun _ => ?_
    exact blames_bind blames_modify fun _ => blames_pure
  · exact blames_pure

theorem blames_push {x : Scope} : g.Blames P (do
    RegistryM.record (.scopeCreated x)
    modify fun r => { r with scopes := r.scopes.push x }
    return id) :=
  blames_bind blames_modify fun _ => blames_bind blames_modify fun _ => blames_pure

/-- A scope can be added inside of one that is there. -/
theorem blames_newScope {kind : ScopeKind} {name : Symbol} {file : String} {line : Int32}
    {parent : Option ScopeId} (hfull : g.Full → P .overflow)
    (hsize : UInt64.size ≤ g.scopes.size → P .overflow) (hparent : ∀ p ∈ parent, g.Has p) :
    g.Blames P (RegistryM.newScope kind name file line parent) := by
  unfold RegistryM.newScope
  refine blames_get_bind ?_
  dsimp only
  split
  · next hge => exact blames_bind (blames_throw (hsize hge)) fun h => nomatch h
  refine blames_bind (blames_takeClosureId hfull) fun {_ w} htake => ?_
  obtain ⟨-, next, rfl, -⟩ := eq_of_takeClosureId htake
  split
  · exact blames_push
  · next p =>
    have hp : Has { g with nextClosureId := next } p := hparent p rfl
    split
    · refine blames_bind (blames_updateScope hp) fun hadd => ?_
      obtain ⟨x, hx, rfl⟩ := runs_updateScope.mp hadd
      exact blames_bind (blames_scope (.of_scope? (scope?_setScope_self hx))) fun _ => blames_push
    · exact blames_bind (blames_scope hp) fun _ => blames_push

theorem blames_openBuilder {borrowsTemps : Bool} {coverage : Coverage} (hid : g.Has id) :
    g.Blames P (Session.openBuilder id borrowsTemps coverage) :=
  blames_bind (blames_scope hid) fun _ => blames_bind blames_modify fun _ => blames_pure

theorem blames_insertFlags {flags : ScopeFlags} (hid : g.Has id) (hopen : ¬ g.Finished id) :
    g.Blames P (RegistryM.insertFlags id flags) := by
  unfold RegistryM.insertFlags
  refine blames_bind (blames_scope hid) fun hscope => ?_
  obtain ⟨hx, rfl⟩ := runs_scope.mp hscope
  split
  · next hfinished => exact absurd ⟨_, hx, hfinished⟩ hopen
  · exact blames_updateScope hid

/-- The listener is not told of services. -/
theorem Service.heard {kept : Prop} {g' : Registry} (h : g.Service kept g') : g'.heard = g.heard := by
  cases h with
  | @record e he =>
    have hnone : e.notice? = none := by
      cases e <;> first | rfl | cases he
    rw [heard_of_record (u := ()) (runs_record.mpr rfl), hnone]
    exact List.append_nil _
  | newLabel h => exact heard_of_newLabel h
  | nextTemp h => exact heard_of_nextTemp h
  | addClosure _ h => exact heard_of_updateScope h

end Registry

namespace Session

variable {α : Type} {p : Terms} {s t : Session}

/-- The ways a builder ends its work: before anything is stored, or by storing its list and the
final flags of a scope that was not finished. -/
inductive Closing (p : Terms) (s : Session) : Except Fault ScopeId × Session → Prop
  | fails {e : Fault} {u : Session} : s.Strokes p u →
    (p.names → p.limits → e.Excused u.registry) → Closing p s (.error e, u)
  | stores {u : Session} {x : Scope} {flags : ScopeFlags} : s.Strokes p u →
    u.registry.scope? s.builder.scope = some x → ¬ x.isFinished → flags.contains .flagsComputed →
      Closing p s (.ok s.builder.scope,
        { u with
          registry := u.registry.setScope s.builder.scope
            { x with instrs := some u.builder.instrs.toList, flags } })

theorem closing_bind {x : SessionM α} {f : α → SessionM ScopeId} (hs : s.Sound p)
    (hx : s.Proceeds p x)
    (hf : ∀ {a t}, s.Runs x a t → s.Strokes p t → t.Sound p → t.Closing p (f a t)) :
    s.Closing p ((x >>= f) s) := by
  rw [bind_apply]
  rcases hr : x s with ⟨e | a, t⟩
  · have hstrokes := hx.strokes hs
    rw [hr] at hstrokes
    refine .fails hstrokes fun hnames hlimits => ?_
    have hexcused := hx.excused hnames hlimits hs (e := e) (by rw [hr])
    rwa [hr] at hexcused
  · have ht : s.Strokes p t := by
      have hstrokes := hx.strokes hs
      rwa [hr] at hstrokes
    have hclosing := hf hr ht (ht.sound hs)
    dsimp only
    generalize f a t = outcome at hclosing ⊢
    cases hclosing with
    | fails hu hexcused => exact .fails (ht.trans hu) hexcused
    | stores hu hscope hunfinished hflags =>
      rw [ht.scope] at hscope ⊢
      exact .stores (ht.trans hu) hscope hunfinished hflags

theorem closing_throw {e : BuildError} :
    s.Closing p ((throw (.error e) : SessionM ScopeId) s) := .fails .refl fun _ _ => trivial

theorem proceeds_loadBlock {b : Builder} : s.Proceeds p (loadBlock b) := by
  unfold loadBlock
  split
  · exact proceeds_bind proceeds_yieldClosureVar fun _ _ =>
      proceeds_emitAtBeginning fun _ => .of_none rfl
  · exact proceeds_pure

theorem proceeds_mapM_scope {ids : List ScopeId}
    (h : p.names → ∀ c ∈ ids, s.registry.Has c) :
    s.Proceeds p (ids.mapM fun id => liftM (RegistryM.scope id)) := by
  induction ids generalizing s with
  | nil => exact proceeds_pure
  | cons id ids ih =>
    rw [List.mapM_cons]
    refine proceeds_bind (proceeds_scope fun hnames => h hnames id List.mem_cons_self)
      fun _ ht => ?_
    refine proceeds_bind (ih fun hnames c hc => ?_) fun _ _ => proceeds_pure
    exact ht.serves.has (h hnames c (List.mem_cons_of_mem _ hc))

theorem closing_store {x : Scope} {list : List Instr} {flags : ScopeFlags}
    (hx : s.registry.scope? s.builder.scope = some x) (hopen : ¬ x.isFinished)
    (hlist : list = s.builder.instrs.toList) (hflags : flags.contains .flagsComputed) :
    s.Closing p ((do
      RegistryM.store s.builder.scope list flags
      return s.builder.scope : SessionM ScopeId) s) := by
  have hruns : s.Runs (do
      RegistryM.store s.builder.scope list flags
      return s.builder.scope : SessionM ScopeId) s.builder.scope
      { s with registry :=
          s.registry.setScope s.builder.scope { x with instrs := some list, flags } } :=
    runs_bind.mpr ⟨(), _, runs_liftM.mpr ⟨_, Registry.runs_updateScope.mpr ⟨x, hx, rfl⟩, rfl⟩,
      runs_pure.mpr ⟨rfl, rfl⟩⟩
  rw [hruns, hlist]
  exact .stores .refl hx hopen hflags

theorem closing_storeFinal {x : Scope} {flags : ScopeFlags} (hs : s.Sound p)
    (hx : s.registry.scope? s.builder.scope = some x) (hopen : ¬ x.isFinished) :
    s.Closing p (storeFinal flags s) := by
  refine closing_bind hs proceeds_insertFlags fun hinsert _ hs => ?_
  obtain rfl := runs_updateBuilder.mp hinsert
  refine closing_bind hs proceeds_current fun hcurrent _ hs => ?_
  obtain ⟨rfl, rfl⟩ := runs_current.mp hcurrent
  refine closing_bind hs proceeds_ownScope fun {y _} hown _ hs => ?_
  obtain ⟨hy, rfl⟩ := runs_ownScope.mp hown
  obtain rfl := Option.some.inj (hx.symm.trans hy)
  refine closing_bind hs (proceeds_mapM_scope fun hnames c hc =>
    (hs.formed hnames).closures hx hc) fun hmap _ hs => ?_
  obtain ⟨-, rfl⟩ := runs_mapM_scope.mp hmap
  refine closing_bind hs (proceeds_record rfl) fun hrecord _ _ => ?_
  obtain ⟨g, hg, rfl⟩ := runs_liftM.mp hrecord
  obtain rfl := Registry.runs_record.mp hg
  exact closing_store hx hopen rfl (Builder.flagsComputed_finalFlags _ _)

theorem closing_finish (hs : s.Sound p) : s.Closing p (finish s) := by
  rw [finish_eq]
  refine closing_bind hs proceeds_current fun hcurrent _ hs => ?_
  obtain ⟨rfl, rfl⟩ := runs_current.mp hcurrent
  refine closing_bind hs proceeds_ownScope fun {x _} hown _ hs => ?_
  obtain ⟨hx, rfl⟩ := runs_ownScope.mp hown
  split
  · exact closing_throw
  next hopen =>
  split
  · exact closing_throw
  refine closing_bind hs proceeds_loadBlock fun _ hload hs => ?_
  obtain ⟨y, hy, hxy⟩ := hload.serves.lasts.old hx
  refine closing_storeFinal hs (x := y) (hload.scope ▸ hy) ?_
  rwa [hxy.isFinished_eq]

end Session

/-- The fault that the change fails with, and the registry that it leaves. -/
def RegistryM.halt? {α : Type} (x : RegistryM α) (g : Registry) : Option (Fault × Registry) :=
  match x g with
  | .ok _ => none
  | .error e => some (e, g)

/-- The fault that no caller may catch, and the registry that it leaves. -/
def Session.halt? {α : Type} (x : SessionM α) (s : Session) : Option (Fault × Registry) :=
  match x s with
  | (.ok _, _) | (.error (.error _), _) => none
  | (.error e, t) => some (e, t.registry)

/-- One thing done in a workshop. -/
inductive Doing where
  | op (o : Op)
  /-- Adds flags to a scope from outside of its builders. -/
  | insertFlags (scope : ScopeId) (flags : ScopeFlags)

namespace Doing

/-- The scope that a builder is opened for. -/
def opened? : Doing → Option ScopeId
  | op (.openRoot scope) | op (.openInside _ scope _) => some scope
  | _ => none

/-- The scopes that the doing names, other than in what builders are given. -/
def named : Doing → List ScopeId
  | op (.newScope _ _ _ _ parent) => parent.toList
  | op (.newLabel scope _) | op (.nextTemp scope) | op (.setRefined scope _)
  | op (.openRoot scope) | op (.openInside _ scope _) | insertFlags scope _ => [scope]
  | _ => []

/-- The builder at work, and what it does. -/
def act? (w : Workshop) : Doing → Option (Worker × Act)
  | op (.act place a) => (w.worker? place).map (·, a)
  | _ => none

/-- The builder that the doing needs. -/
def place? : Doing → Option Nat
  | op (.openInside place _ _) | op (.act place _) | op (.finish place) | op (.drop place) =>
    some place
  | _ => none

/-- The scope that flags are added to from outside. -/
def flagged? : Doing → Option ScopeId
  | insertFlags scope _ => some scope
  | _ => none

/-- The doing keeps what callers promise. -/
structure Keeps (p : Terms) (w : Workshop) (d : Doing) : Prop where
  names : p.names → ∀ id ∈ d.named, w.registry.Has id
  act : ∀ done ∈ d.act? w, done.2.Keeps p (w.session done.1)
  flags : p.limits → ∀ id ∈ d.flagged?, ¬ w.registry.Finished id

theorem keeps_iff {p : Terms} {w : Workshop} {d : Doing} : d.Keeps p w ↔
    (p.names → ∀ id ∈ d.named, w.registry.Has id) ∧
      (∀ done ∈ d.act? w, done.2.Keeps p (w.session done.1)) ∧
      (p.limits → ∀ id ∈ d.flagged?, ¬ w.registry.Finished id) :=
  ⟨fun h => ⟨h.names, h.act, h.flags⟩, fun ⟨hnames, hact, hflags⟩ => ⟨hnames, hact, hflags⟩⟩

instance {p : Terms} [Decidable p.names] [Decidable p.limits] (w : Workshop) (d : Doing) :
    Decidable (d.Keeps p w) := decidable_of_iff' _ keeps_iff

end Doing

namespace Workshop

open Session

variable {p : Terms} {w w' : Workshop} {d : Doing} {ds : List Doing}

section Places

variable {place place' : Nat} {k' : Worker}

theorem worker?_setWorker_cases {k : Option Worker}
    (h : (w.setWorker place k).worker? place' = some k') :
    place' = place ∧ k = some k' ∨ place' ≠ place ∧ w.worker? place' = some k' := by
  by_cases hplace : place' = place
  · subst hplace
    unfold worker? setWorker at h
    dsimp only at h
    rw [List.getElem?_set_self'] at h
    cases hold : w.workers[place']? <;> rw [hold] at h
    · cases h
    · exact .inl ⟨rfl, h⟩
  · rw [worker?_setWorker_ne (Ne.symm hplace)] at h
    exact .inr ⟨hplace, h⟩

theorem worker?_addWorker_cases {k : Worker} (h : (w.addWorker k).worker? place = some k') :
    place = w.workers.length ∧ k' = k ∨ w.worker? place = some k' := by
  unfold worker? addWorker at *
  dsimp only at h
  rw [List.getElem?_append] at h
  split at h
  · exact .inr h
  · next hge =>
    rw [List.getElem?_singleton] at h
    split at h
    · exact .inl ⟨by omega, (Option.some.inj h).symm⟩
    · cases h

end Places

/-- Does one thing. There is no outcome where it cannot be done, or where it ends all building. -/
def perform (w : Workshop) : Doing → Option Workshop
  | .op o => w.step o
  | .insertFlags scope flags => (w.change (RegistryM.insertFlags scope flags)).map (·.2)

theorem steps_of_perform {w w' : Workshop} {op : Op} (h : w.perform (.op op) = some w') :
    w.Steps op w' :=
  steps_of_step h

theorem insertFlags_of_perform {w w' : Workshop} {id : ScopeId} {flags : ScopeFlags}
    (h : w.perform (.insertFlags id flags) = some w') :
    ∃ g, w.registry.Runs (RegistryM.insertFlags id flags) () g ∧ w' = { w with registry := g } := by
  obtain ⟨_, g, hg, rfl⟩ := map_change_eq_some.mp h
  exact ⟨g, hg, rfl⟩

/-- The fault by which the doing ends all building, and the registry that it leaves. -/
def halt? (w : Workshop) : Doing → Option (Fault × Registry)
  | .insertFlags scope flags => (RegistryM.insertFlags scope flags).halt? w.registry
  | .op (.newScope kind name file line parent) =>
    (RegistryM.newScope kind name file line parent).halt? w.registry
  | .op (.newLabel scope stem) => (RegistryM.newLabel scope stem).halt? w.registry
  | .op (.nextTemp scope) => (RegistryM.nextTemp scope).halt? w.registry
  | .op (.setRefined scope refined) => (RegistryM.setRefined scope refined).halt? w.registry
  | .op (.openRoot scope) => (openRoot scope).halt? w.registry
  | .op (.openInside place scope borrowsTemps) => do
    let around ← w.worker? place
    (openBuilder scope borrowsTemps around.builder.coverage).halt? w.registry
  | .op (.act place a) => do
    let k ← w.worker? place
    Session.halt? a.run (w.session k)
  | .op (.finish place) => do
    let k ← w.worker? place
    Session.halt? Session.finish (w.session k)
  | .op (.drop _) => none

def performAll (w : Workshop) (ds : List Doing) : Option Workshop := ds.foldlM perform w

theorem runs_or_halt {α : Type} (x : RegistryM α) (g : Registry) :
    (∃ a h, g.Runs x a h) ∨ ∃ r, x.halt? g = some r := by
  unfold Registry.Runs RegistryM.halt?
  rcases x g with e | ⟨a, h⟩
  · exact .inr ⟨_, rfl⟩
  · exact .inl ⟨a, h, rfl⟩

/-- An action ends in a way that callers can go on after, or by a fault that none may catch. -/
theorem settled_or_halt {α : Type} (x : SessionM α) (s : Session) :
    (∃ v, settled x s = some (v, (x s).2) ∧
      ∀ e, (x s).1 = .error e → ∃ cause, e = .error cause) ∨
    ∃ e t, x s = (.error e, t) ∧ (∀ cause, e ≠ .error cause) ∧
      Session.halt? x s = some (e, t.registry) := by
  unfold settled Session.halt?
  rcases x s with ⟨(cause | _ | _ | _) | a, t⟩
  · exact .inl ⟨_, rfl, fun _ he => ⟨cause, (Except.error.inj he).symm⟩⟩
  · exact .inr ⟨_, t, rfl, fun _ he => Fault.noConfusion he, rfl⟩
  · exact .inr ⟨_, t, rfl, fun _ he => Fault.noConfusion he, rfl⟩
  · exact .inr ⟨_, t, rfl, fun _ he => Fault.noConfusion he, rfl⟩
  · refine .inl ⟨_, rfl, fun _ he => ?_⟩
    cases he

/-- A doing is done or ends all building, if its builder is there. -/
theorem perform_or_halt (hplace : ∀ place ∈ d.place?, ∃ k, w.worker? place = some k) :
    (∃ w', w.perform d = some w') ∨ ∃ r, w.halt? d = some r := by
  have hmanages : ∀ {α : Type} {x : RegistryM α}, w.perform d = (w.change x).map (·.2) →
      w.halt? d = x.halt? w.registry →
      (∃ w', w.perform d = some w') ∨ ∃ r, w.halt? d = some r := by
    intro α x hperform hhalt
    rw [hperform, hhalt]
    rcases runs_or_halt x w.registry with ⟨a, g, hg⟩ | hend
    · exact .inl ⟨_, map_change_eq_some.mpr ⟨a, g, hg, rfl⟩⟩
    · exact .inr hend
  cases d with
  | insertFlags => exact hmanages rfl rfl
  | op o =>
    cases o with
    | newScope | newLabel | nextTemp | setRefined => exact hmanages rfl rfl
    | openRoot id =>
      rcases runs_or_halt (openRoot id) w.registry with ⟨b, g, hg⟩ | hend
      · exact .inl ⟨_, Steps.step (.openRoot (runs_openRoot.mp hg))⟩
      · exact .inr hend
    | openInside place id borrowsTemps =>
      obtain ⟨k, hk⟩ := hplace place rfl
      rcases runs_or_halt (openBuilder id borrowsTemps k.builder.coverage) w.registry with
        ⟨b, g, hg⟩ | ⟨r, hr⟩
      · exact .inl ⟨_, Steps.step (.openInside hk hg)⟩
      · exact .inr ⟨r, Option.bind_eq_some_iff.mpr ⟨k, hk, hr⟩⟩
    | act place a =>
      obtain ⟨k, hk⟩ := hplace place rfl
      rcases settled_or_halt a.run (w.session k) with ⟨v, hr, -⟩ | ⟨e, t, -, -, hr⟩
      · exact .inl ⟨_, Steps.step (.act hk hr)⟩
      · exact .inr ⟨_, Option.bind_eq_some_iff.mpr ⟨k, hk, hr⟩⟩
    | finish place =>
      obtain ⟨k, hk⟩ := hplace place rfl
      rcases settled_or_halt finish (w.session k) with ⟨v, hr, -⟩ | ⟨e, t, -, -, hr⟩
      · exact .inl ⟨_, Steps.step (.finish hk hr)⟩
      · exact .inr ⟨_, Option.bind_eq_some_iff.mpr ⟨k, hk, hr⟩⟩
    | drop place =>
      obtain ⟨k, hk⟩ := hplace place rfl
      exact .inl ⟨_, Steps.step (.drop hk)⟩

/-- Every doing of the run keeps what callers promise. -/
def Honours (p : Terms) : Workshop → List Doing → Prop
  | _, [] => True
  | w, d :: ds => d.Keeps p w ∧ ∀ w' ∈ w.perform d, Honours p w' ds

instance decidableHonours [Decidable p.names] [Decidable p.limits] :
    ∀ w ds, Decidable (Honours p w ds)
  | _, [] => .isTrue trivial
  | w, d :: ds => by
    unfold Honours
    have := fun w' => decidableHonours w' ds
    infer_instance

/-- What holds at first, and after each doing that keeps the promises if it held before, holds of
the whole run. -/
theorem run_of_doings {I : List Doing → Workshop → Prop} {w₀ : Workshop}
    (hstep : ∀ {ds d w w'}, I ds w → d.Keeps p w → w.perform d = some w' → I (ds ++ [d]) w')
    (hstart : I [] w₀) (hrun : w₀.performAll ds = some w) (hkept : w₀.Honours p ds) : I ds w := by
  suffices hfrom : ∀ {before w₁}, I before w₁ → w₁.performAll ds = some w → w₁.Honours p ds →
      I (before ++ ds) w from hfrom hstart hrun hkept
  clear hstart hrun hkept
  induction ds with
  | nil =>
    intro before w₁ h hrun _
    cases hrun
    rwa [List.append_nil]
  | cons d ds ih =>
    intro before w₁ h hrun hkept
    obtain ⟨w₂, hd, hrun⟩ := Option.bind_eq_some_iff.mp hrun
    have hrest := ih (hstep h hkept.1 hd) hrun (hkept.2 w₂ hd)
    rwa [List.append_assoc] at hrest

/-- The scopes are formed, and every builder has what it relies on. -/
structure Staffed (p : Terms) (w : Workshop) : Prop where
  formed : p.names → w.registry.Formed
  fit {place : Nat} {k : Worker} : w.worker? place = some k → k.builder.Fit p w.registry

theorem Staffed.session {place : Nat} {k : Worker} (hw : w.Staffed p)
    (hk : w.worker? place = some k) : (w.session k).Sound p where
  formed := hw.formed
  fit := hw.fit hk
  outer hb := by
    obtain ⟨place', k', hk', rfl⟩ := mem_builders_of_session hk (List.mem_cons_of_mem _ hb)
    exact (hw.fit hk').scope

/-- What one doing does. -/
inductive Effect (p : Terms) (w : Workshop) : Doing → Workshop → Prop
  | manages {d : Doing} {g : Registry} : d.opened? = none → (∀ place, d ≠ .op (.finish place)) →
    w.registry.Change p.names g → g.heard = w.registry.heard →
      Effect p w d { w with registry := g }
  | opens {d : Doing} {g : Registry} {b : Builder} {x : Scope} {outer : List Nat} :
    d.opened? = some b.scope → w.registry.Change p.names g → g.heard = w.registry.heard →
    g.scope? b.scope = some x → b.Unused x → b.line = .fresh →
      Effect p w d (addWorker { w with registry := g } ⟨b, outer, false⟩)
  | acts {place : Nat} {k : Worker} {a : Act} {t : Session} {refused : Bool} :
    w.worker? place = some k → (w.session k).Strokes p t →
      Effect p w (.op (.act place a))
        { w.setWorker place (some { k with builder := t.builder, refused }) with
          registry := t.registry }
  | finishes {place : Nat} {k : Worker} {u : Session} {x : Scope} {flags : ScopeFlags}
      {refusing : List ScopeId} :
    w.worker? place = some k → (w.session k).Strokes p u →
    u.registry.scope? k.builder.scope = some x → ¬ x.isFinished → flags.contains .flagsComputed →
    (w.session k).Runs finish k.builder.scope
      { u with
        registry := u.registry.setScope k.builder.scope
          { x with instrs := some u.builder.instrs.toList, flags } } →
      Effect p w (.op (.finish place))
        { w.setWorker place none with
          registry := u.registry.setScope k.builder.scope
            { x with instrs := some u.builder.instrs.toList, flags }
          refusing }
  | fails {place : Nat} {k : Worker} {u : Session} {e : Fault} {refusing : List ScopeId} :
    w.worker? place = some k → (w.session k).Strokes p u →
    finish (w.session k) = (.error e, u) →
      Effect p w (.op (.finish place))
        { w.setWorker place none with registry := u.registry, refusing }
  | drops {place : Nat} : Effect p w (.op (.drop place)) (w.setWorker place none)

theorem effect_of_finish {place : Nat} (hw : w.Staffed p)
    (h : w.step (.finish place) = some w') : w.Effect p (.op (.finish place)) w' := by
  cases steps_of_step h with
  | @finish _ k _ _ hk ht =>
    have hclosing := closing_finish (hw.session hk)
    generalize hfinish : finish (w.session k) = outcome at hclosing
    cases hclosing with
    | fails hu =>
      obtain rfl := eq_of_settled ht
      rw [hfinish]
      exact .fails hk hu hfinish
    | stores hu hx hopen hflags =>
      obtain rfl := eq_of_settled ht
      rw [hfinish]
      exact .finishes hk hu hx hopen hflags hfinish

theorem effect_of_open {d : Doing} {g : Registry} {id : ScopeId} {borrowsTemps : Bool}
    {coverage : Coverage} {b : Builder} {outer : List Nat} (hd : d.opened? = some id)
    (h : w.registry.Runs (openBuilder id borrowsTemps coverage) b g) :
    w.Effect p d (addWorker { w with registry := g } ⟨b, outer, false⟩) := by
  have hheard := Registry.heard_of_openBuilder h
  obtain ⟨-, x, hx, hunused⟩ := unused_of_openBuilder h
  obtain ⟨_, -, rfl, rfl⟩ := eq_of_openBuilder h
  exact .opens hd .record hheard hx hunused rfl

theorem effect_of_perform (hw : w.Staffed p) (hd : d.Keeps p w) (h : w.perform d = some w') :
    w.Effect p d w' := by
  cases d with
  | insertFlags id flags =>
    obtain ⟨g, hg, rfl⟩ := insertFlags_of_perform h
    refine .manages rfl (fun _ h => nomatch h) (.insertFlags hg) ?_
    obtain ⟨x, -, -, rfl⟩ := Registry.eq_of_insertFlags hg
    rfl
  | op o =>
    cases steps_of_perform h with
    | newScope hg =>
      exact .manages rfl (fun _ h => nomatch h) (.newScope hg) (Registry.heard_of_newScope hg)
    | newLabel hg =>
      exact .manages rfl (fun _ h => nomatch h) (.serves (.newLabel hg))
        (Registry.heard_of_newLabel hg)
    | nextTemp hg =>
      exact .manages rfl (fun _ h => nomatch h) (.serves (.nextTemp hg))
        (Registry.heard_of_nextTemp hg)
    | setRefined hg =>
      exact .manages rfl (fun _ h => nomatch h) (.setRefined hg) (Registry.heard_of_updateScope hg)
    | openRoot hg | openInside _ hg => exact effect_of_open rfl hg
    | @act place a _ _ _ hk ht =>
      have hkeeps : a.Keeps p (w.session _) := hd.act (_, a) (by
        show (w.worker? place).map (·, a) = some (_, a)
        rw [hk]
        rfl)
      obtain rfl := eq_of_settled ht
      exact .acts hk ((Act.proceeds hkeeps).strokes (hw.session hk))
    | finish => exact effect_of_finish hw h
    | drop => exact .drops

theorem Effect.advances (h : w.Effect p d w') : w.registry.Advances p.names w'.registry := by
  cases h with
  | manages _ _ hg => exact .single (.changes hg)
  | opens _ hg => exact .single (.changes hg)
  | acts _ hu => exact Strokes.advances hu
  | finishes _ hu hx hopen hflags =>
    exact (Strokes.advances hu).tail (.store hx hopen hflags)
  | fails _ hu => exact Strokes.advances hu
  | drops => exact .refl

namespace Staffed

theorem empty (config : Config) : (Workshop.empty config).Staffed p where
  formed _ := Registry.formed_empty config
  fit h := nomatch h

theorem effect (hw : w.Staffed p) (h : w.Effect p d w') : w'.Staffed p := by
  have hadvances := h.advances
  have hformed : p.names → w'.registry.Formed :=
    fun hnames => (hw.formed hnames).advances hnames hadvances
  have hold : ∀ {place k}, w.worker? place = some k → k.builder.Fit p w'.registry :=
    fun hk => (hw.fit hk).later hadvances.has
  refine ⟨hformed, fun {place k} hk => ?_⟩
  cases h with
  | manages => exact hold hk
  | opens _ _ _ hx hunused hline =>
    rcases worker?_of_addWorker hk with rfl | hk
    · refine ⟨.of_scope? hx, fun _ f hf => ?_, fun _ => ?_, fun {l} _ hl => ?_⟩
      · rw [hunused.ensures, hunused.ensureBodies] at hf
        cases hf
      · rw [hline]
        decide
      · rw [hline] at hl
        cases hl
    · exact hold hk
  | acts hk' hu =>
    rcases worker?_of_setWorker hk with heq | hk
    · obtain rfl := Option.some.inj heq
      exact (Strokes.sound (hw.session hk') hu).fit
    · exact hold hk
  | finishes | fails | drops =>
    rcases worker?_of_setWorker hk with heq | hk
    · cases heq
    · exact hold hk

end Staffed

/-- A run of doings that keep the promises, seen through the effect of each of them. -/
theorem run_of_effects {I : List Doing → Workshop → Prop} {w₀ : Workshop}
    (hstep : ∀ {ds d w w'}, w.Staffed p → I ds w → d.Keeps p w → w.perform d = some w' →
      w.Effect p d w' → I (ds ++ [d]) w')
    (hw₀ : w₀.Staffed p) (hstart : I [] w₀) (hrun : w₀.performAll ds = some w)
    (hkept : w₀.Honours p ds) : w.Staffed p ∧ I ds w := by
  apply run_of_doings (I := fun ds w => w.Staffed p ∧ I ds w) _ ⟨hw₀, hstart⟩ hrun hkept
  rintro ds d w w' ⟨hw, h⟩ hd hperform
  have heffect := effect_of_perform hw hd hperform
  exact ⟨hw.effect heffect, hstep hw h hd hperform heffect⟩

/-- Promises of nothing are kept. -/
theorem honours_nothing (w : Workshop) (ds : List Doing) : w.Honours ⟨False, False⟩ ds := by
  induction ds generalizing w with
  | nil => trivial
  | cons d ds ih =>
    refine ⟨⟨False.elim, fun _ _ => ⟨False.elim, False.elim, False.elim⟩, False.elim⟩, ?_⟩
    exact fun w' _ => ih w'

end Workshop

end ScopeIR
