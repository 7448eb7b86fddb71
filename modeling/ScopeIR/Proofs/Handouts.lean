import ScopeIR.Proofs.Motions
import ScopeIR.Proofs.Workers
import ScopeIR.Proofs.Veil

/-! Which variables builders hand out. Temporaries are numbered by the builder they come from,
however many others borrow them, but the variable for a module is numbered by the scope it belongs
to. -/

namespace ScopeIR

theorem split_of_concat {α : Type} {xs before after : List α} {x y : α}
    (h : xs ++ [x] = before ++ y :: after) :
    (before = xs ∧ y = x) ∨ ∃ rest, xs = before ++ y :: rest := by
  rcases List.eq_nil_or_concat' after with rfl | ⟨rest, z, rfl⟩
  · obtain ⟨hxs, hx⟩ := List.append_inj' h rfl
    exact .inl ⟨hxs.symm, (List.singleton_inj.mp hx).symm⟩
  · rw [← List.cons_append, ← List.append_assoc] at h
    exact .inr ⟨rest, (List.append_inj' h rfl).1⟩

namespace Registry

/-- Nothing was handed out yet for a new scope. -/
theorem counters_of_newScope {g g' : Registry} {kind : ScopeKind} {name : Symbol} {file : String}
    {line : Int32} {parent : Option ScopeId} {id : ScopeId}
    (h : g.Runs (RegistryM.newScope kind name file line parent) id g') :
    g'.labels id = 0 ∧ g'.temps id = 0 := by
  obtain ⟨next, closureId, refined, w, hid, -, -, hw, rfl⟩ := eq_of_newScope h
  rw [labels, temps, scope?_extended_self (hid.trans hw.keeps.size_eq.symm)]
  exact ⟨rfl, rfl⟩

end Registry

/-- The variable for the module of a frame. -/
def Variable.isModule : Variable → Bool
  | .temp (.currentModule _) => true
  | _ => false

/-- A variable that was handed out, with the scope of the builder that was asked for it and the
scope that this builder took temporaries from. -/
structure Handout where
  place : Nat
  scope : ScopeId
  source : ScopeId
  var : Variable
  deriving DecidableEq

namespace Handout

/-- The scope by whose counter the variable got its number. -/
def counter (h : Handout) : ScopeId := if h.var.isModule then h.scope else h.source

/-- The variable is not numbered by the counter that temporaries come from. -/
def IsForeign (h : Handout) : Prop := h.var.isModule ∧ h.scope ≠ h.source

theorem counter_of_module {h : Handout} (hv : h.var.isModule) : h.counter = h.scope := if_pos hv

theorem counter_of_not_module {h : Handout} (hv : h.var.isModule = false) : h.counter = h.source :=
  if_neg (Bool.eq_false_iff.mp hv)

theorem counter_of_not_isForeign {h : Handout} (hh : ¬ h.IsForeign) : h.counter = h.source := by
  unfold counter
  split
  · next hv => exact Decidable.of_not_not fun hne => hh ⟨hv, hne⟩
  · rfl

end Handout

/-- No two variables were given one number by one counter, and all numbers are below the limits. -/
structure SetApart (limit : ScopeId → Nat) (log : List Handout) : Prop where
  bound {h : Handout} : h ∈ log → h.var.index < limit h.counter
  unique {h h' : Handout} : h ∈ log → h' ∈ log → h.counter = h'.counter →
    h.var.index = h'.var.index → h.var = h'.var

namespace SetApart

variable {limit limit' : ScopeId → Nat} {log : List Handout} {h h₀ : Handout}

theorem mono (hlog : SetApart limit log) (hle : ∀ id, limit id ≤ limit' id) :
    SetApart limit' log where
  bound hh := (hlog.bound hh).trans_le (hle _)
  unique := hlog.unique

theorem concat (hlog : SetApart limit log) (hh : h.var.index < limit h.counter)
    (hunique : ∀ h' ∈ log, h'.counter = h.counter → h'.var.index = h.var.index → h'.var = h.var) :
    SetApart limit (log ++ [h]) where
  bound hmem := by
    rcases List.mem_append.mp hmem with hmem | hmem
    · exact hlog.bound hmem
    · rwa [List.mem_singleton.mp hmem]
  unique {h₁ h₂} h₁mem h₂mem hcounter hindex := by
    rcases List.mem_append.mp h₁mem with h₁mem | h₁mem <;>
      rcases List.mem_append.mp h₂mem with h₂mem | h₂mem
    · exact hlog.unique h₁mem h₂mem hcounter hindex
    · cases List.mem_singleton.mp h₂mem
      exact hunique _ h₁mem hcounter hindex
    · cases List.mem_singleton.mp h₁mem
      exact (hunique _ h₂mem hcounter.symm hindex.symm).symm
    · rw [List.mem_singleton.mp h₁mem, List.mem_singleton.mp h₂mem]

/-- A number that is counted up to. -/
theorem fresh (hlog : SetApart limit log) (hle : ∀ id, limit id ≤ limit' id)
    (hge : limit h.counter ≤ h.var.index) (hlt : h.var.index < limit' h.counter) :
    SetApart limit' (log ++ [h]) := by
  refine (hlog.mono hle).concat hlt fun h' hmem hcounter hindex => ?_
  have hbound := hlog.bound hmem
  rw [hcounter, hindex] at hbound
  exact absurd hge (Nat.not_le.mpr hbound)

/-- What is handed out once more. -/
theorem again (hlog : SetApart limit log) (hmem : h₀ ∈ log) (hvar : h₀.var = h.var)
    (hcounter : h₀.counter = h.counter) : SetApart limit (log ++ [h]) := by
  have hbound := hlog.bound hmem
  rw [hvar, hcounter] at hbound
  refine hlog.concat hbound fun h' hmem' hcounter' hindex => ?_
  rw [← hvar]
  exact hlog.unique hmem' hmem (hcounter'.trans hcounter.symm) (hindex.trans (hvar ▸ rfl))

end SetApart

namespace Session

variable {s t u : Session} {v : Variable} {vs vs' : List Variable} {place : Nat}
  {log : List Handout}

/-- The builder is for the same scope and takes its temporaries from where it did. -/
structure Abides (s t : Session) : Prop where
  registry : s.registry.GrowsTo t.registry
  outer : t.outer = s.outer
  scope : t.builder.scope = s.builder.scope
  borrowsTemps : t.builder.borrowsTemps = s.builder.borrowsTemps

theorem Adds.abides {xs : List Instr} (h : s.Adds t xs) : s.Abides t :=
  ⟨h.registry, h.outer, h.scope, h.borrowsTemps⟩

namespace Abides

theorem refl (s : Session) : s.Abides s := ⟨.refl _, rfl, rfl, rfl⟩

theorem trans (h : s.Abides t) (h' : t.Abides u) : s.Abides u :=
  ⟨h.registry.trans h'.registry, h'.outer.trans h.outer, h'.scope.trans h.scope,
    h'.borrowsTemps.trans h.borrowsTemps⟩

theorem tempScope (h : s.Abides t) : t.tempScope = s.tempScope := by
  unfold Session.tempScope
  rw [h.outer]
  cases s.outer with
  | nil => exact h.scope
  | cons p outer =>
    simp only [Builder.tempOwner, h.borrowsTemps]
    split
    · rfl
    · exact h.scope

end Abides

/-- Nothing is handed out, and what was is not forgotten. -/
structure HandsNone (s t : Session) : Prop extends s.Abides t where
  yieldClosure : t.builder.yieldClosure = s.builder.yieldClosure
  currentModule : t.builder.currentModule = s.builder.currentModule

theorem HandsNone.of_registry {g : Registry} (h : s.registry.GrowsTo g) :
    s.HandsNone { s with registry := g } := ⟨⟨h, rfl, rfl, rfl⟩, rfl, rfl⟩

/-- These variables are handed out, one after another, and nothing else happens that touches
numbers. -/
inductive Hands (s : Session) : List Variable → Session → Prop
  | nothing : Hands s [] s
  | rests {vs : List Variable} {u t : Session} : Hands s vs u → u.HandsNone t → Hands s vs t
  | temp {vs : List Variable} {u t : Session} {v : Variable} :
    Hands s vs u → u.Runs temp v t → Hands s (vs ++ [v]) t
  | module {vs : List Variable} {u t : Session} {v : Variable} :
    Hands s vs u → u.Runs currentModuleVar v t → Hands s (vs ++ [v]) t
  | yields {vs : List Variable} {u t : Session} {v : Variable} :
    Hands s vs u → u.Runs yieldClosureVar v t → Hands s (vs ++ [v]) t

theorem Hands.abides (h : s.Hands vs t) : s.Abides t := by
  induction h with
  | nothing => exact .refl s
  | rests _ hrests ih => exact ih.trans hrests.toAbides
  | temp _ htemp ih => exact ih.trans (takesTemp_of_temp htemp).toEmits.abides
  | module _ hmodule ih => exact ih.trans (emits_of_currentModuleVar hmodule).abides
  | yields _ hyields ih => exact ih.trans (emits_of_yieldClosureVar hyields).1.abides

theorem Hands.trans (h : s.Hands vs t) (h' : t.Hands vs' u) : s.Hands (vs ++ vs') u := by
  induction h' with
  | nothing => rwa [List.append_nil]
  | rests _ hrests ih => exact ih.rests hrests
  | temp _ htemp ih => exact List.append_assoc .. ▸ ih.temp htemp
  | module _ hmodule ih => exact List.append_assoc .. ▸ ih.module hmodule
  | yields _ hyields ih => exact List.append_assoc .. ▸ ih.yields hyields

theorem HandsNone.hands (h : s.HandsNone t) : s.Hands [] t := .rests .nothing h

theorem handsNone_of_record {e : Event} {v : Unit}
    (h : s.Runs (liftM (RegistryM.record e)) v t) : s.HandsNone t := by
  obtain ⟨g, hg, rfl⟩ := runs_liftM.mp h
  exact .of_registry (Registry.growsTo_of_record hg)

theorem handsNone_announce (s : Session) (index : Nat) (i : Instr) {b : Builder}
    (hscope : b.scope = s.builder.scope) (hborrows : b.borrowsTemps = s.builder.borrowsTemps)
    (hyields : b.yieldClosure = s.builder.yieldClosure)
    (hmodule : b.currentModule = s.builder.currentModule) : s.HandsNone (s.announce index i b) :=
  ⟨⟨growsTo_announce .., rfl, hscope, hborrows⟩, hyields, hmodule⟩

/-- A line that is flushed may need the variable for the module. -/
theorem hands_of_flushLine {v : Unit} (h : s.Runs flushLine v t) : ∃ vs, s.Hands vs t := by
  have hlined (line : Int32) : s.HandsNone (s.lined line) :=
    ⟨⟨growsTo_announce .., rfl, rfl, rfl⟩, rfl, rfl⟩
  cases flushing_of_flushLine h with
  | idle => exact ⟨[], .nothing⟩
  | plain => exact ⟨[], (hlined _).hands⟩
  | traced _ _ hmodule =>
    exact ⟨_, .rests (.module (hlined _).hands hmodule) (handsNone_announce _ _ _ rfl rfl rfl rfl)⟩

theorem hands_of_emit {i : Instr} {v : Unit} (h : s.Runs (emit i) v t) : ∃ vs, s.Hands vs t := by
  cases hbodies : s.builder.ensureBodies with
  | cons =>
    obtain rfl := (runs_emit_body hbodies).mp h
    exact ⟨[], HandsNone.hands ⟨⟨.refl _, rfl, rfl, rfl⟩, rfl, rfl⟩⟩
  | nil =>
    obtain ⟨u, hflush, rfl⟩ := (runs_emit_list hbodies).mp h
    obtain ⟨vs, hu⟩ := hands_of_flushLine hflush
    exact ⟨vs, hu.rests (handsNone_announce _ _ _ rfl rfl rfl rfl)⟩

theorem hands_of_motion {P Q : Instr → Prop} (h : s.Motion P Q t) : ∃ vs, s.Hands vs t := by
  have hnone (h : s.HandsNone t) : ∃ vs, s.Hands vs t := ⟨[], h.hands⟩
  cases h with
  | label h =>
    obtain ⟨g, hg, rfl⟩ := runs_newLabelNamed.mp h
    exact hnone (.of_registry (Registry.runs_newLabel hg).1)
  | temp h => exact ⟨_, .temp .nothing h⟩
  | module h => exact ⟨_, .module .nothing h⟩
  | yields h => exact ⟨_, .yields .nothing h⟩
  | records _ h => exact hnone (handsNone_of_record h)
  | registers h =>
    obtain ⟨g, hg, rfl⟩ := runs_addClosure.mp h
    exact hnone (.of_registry (Registry.growsTo_of_addClosure hg))
  | starts h =>
    obtain ⟨-, rfl⟩ := runs_newClosureStart.mp h
    exact hnone ⟨⟨.refl _, rfl, rfl, rfl⟩, rfl, rfl⟩
  | emits _ h => exact hands_of_emit h
  | prepends _ h =>
    obtain rfl := runs_prepend.mp h
    exact hnone (handsNone_announce _ _ _ rfl rfl rfl rfl)
  | arranges hsame _ =>
    exact hnone ⟨⟨.refl _, rfl, hsame.scope, hsame.borrowsTemps⟩, hsame.yieldClosure,
      hsame.currentModule⟩

theorem hands_of_motions {P Q : Instr → Prop} (h : s.Motions P Q t) : ∃ vs, s.Hands vs t := by
  induction h with
  | refl => exact ⟨[], .nothing⟩
  | tail _ hstep ih =>
    obtain ⟨vs, hvs⟩ := ih
    obtain ⟨vs', hvs'⟩ := hands_of_motion hstep
    exact ⟨vs ++ vs', hvs.trans hvs'⟩

/-- The session hands out the variable. -/
def handout (s : Session) (place : Nat) (v : Variable) : Handout :=
  ⟨place, s.builder.scope, s.tempScope, v⟩

theorem Abides.handout_eq (h : s.Abides t) : t.handout = s.handout := by
  unfold handout
  rw [h.scope, h.tempScope]

/-- The log has no number twice, and the builder remembers only what is in it. -/
structure Logged (log : List Handout) (s : Session) : Prop where
  distinct : SetApart s.registry.temps log
  yields {v : Variable} : s.builder.yieldClosure = some v →
    v.isModule = false ∧ ∃ h ∈ log, h.var = v ∧ h.counter = s.tempScope
  module {v : Variable} : s.builder.currentModule = some v →
    v.isModule ∧ ∃ h ∈ log, h.var = v ∧ h.counter = s.builder.scope

theorem not_isModule_of_temp (h : s.Runs temp v t) : v.isModule = false ∧ s.HandsNone t := by
  obtain ⟨n, g, x, hn, -, rfl, rfl⟩ := runs_temp h
  refine ⟨?_, .of_registry (Registry.runs_nextTemp hn).1⟩
  unfold Scope.temp
  split <;> rfl

namespace Logged

theorem of_same (hs : s.Logged log) (hle : ∀ id, s.registry.temps id ≤ t.registry.temps id)
    (hscope : t.builder.scope = s.builder.scope) (htemp : t.tempScope = s.tempScope)
    (hyields : t.builder.yieldClosure = s.builder.yieldClosure)
    (hmodule : t.builder.currentModule = s.builder.currentModule) : t.Logged log where
  distinct := hs.distinct.mono hle
  yields hv := by
    rw [htemp]
    exact hs.yields (hyields ▸ hv)
  module hv := by
    rw [hscope]
    exact hs.module (hmodule ▸ hv)

theorem rests (hs : s.Logged log) (h : s.HandsNone t) : t.Logged log :=
  hs.of_same h.registry.temps_le h.scope h.tempScope h.yieldClosure h.currentModule

/-- What is remembered from a log is remembered from a longer one. -/
theorem append {log' : List Handout} (hs : s.Logged log)
    (hlog : SetApart s.registry.temps (log ++ log')) : s.Logged (log ++ log') where
  distinct := hlog
  yields hv := by
    obtain ⟨hmodule, h, hh, heq⟩ := hs.yields hv
    exact ⟨hmodule, h, List.mem_append_left _ hh, heq⟩
  module hv := by
    obtain ⟨hmodule, h, hh, heq⟩ := hs.module hv
    exact ⟨hmodule, h, List.mem_append_left _ hh, heq⟩

theorem temp (hs : s.Logged log) (h : s.Runs Session.temp v t) :
    t.Logged (log ++ [s.handout place v]) := by
  have htakes := takesTemp_of_temp h
  obtain ⟨hmodule, hrests⟩ := not_isModule_of_temp h
  have hcounter : (s.handout place v).counter = s.tempScope := Handout.counter_of_not_module hmodule
  refine (hs.rests hrests).append (hs.distinct.fresh hrests.registry.temps_le ?_ ?_)
  · rw [hcounter]
    exact htakes.ge
  · rw [hcounter, ← hrests.tempScope]
    exact htakes.lt

theorem currentModuleVar (hs : s.Logged log) (h : s.Runs Session.currentModuleVar v t) :
    t.Logged (log ++ [s.handout place v]) := by
  obtain ⟨hcached, rfl⟩ | ⟨-, i, g, hi, rfl, rfl⟩ := runs_currentModuleVar h
  · obtain ⟨hmodule, h, hh, hvar, hcounter⟩ := hs.module hcached
    refine hs.append (hs.distinct.again hh hvar ?_)
    rw [hcounter, Handout.counter_of_module hmodule]
    rfl
  · obtain ⟨hgrows, hge, hlt⟩ := Registry.runs_nextTemp hi
    have habides : s.Abides { s with
        registry := g
        builder := { s.builder with currentModule := some (.temp (.currentModule i)) } } :=
      ⟨hgrows, rfl, rfl, rfl⟩
    have hlog : SetApart g.temps (log ++ [s.handout place (.temp (.currentModule i))]) :=
      hs.distinct.fresh hgrows.temps_le hge hlt
    refine ⟨hlog, fun hv => ?_, fun hv => ?_⟩
    · obtain ⟨hmodule, h, hh, hvar, hcounter⟩ := hs.yields hv
      exact ⟨hmodule, h, List.mem_append_left _ hh, hvar, hcounter.trans habides.tempScope.symm⟩
    · obtain rfl := Option.some.inj hv
      exact ⟨rfl, _, List.mem_append_right _ (List.mem_singleton_self _), rfl, rfl⟩

theorem yieldClosureVar (hs : s.Logged log) (h : s.Runs Session.yieldClosureVar v t) :
    t.Logged (log ++ [s.handout place v]) := by
  have habides : s.HandsNone s.yielding := ⟨⟨.refl _, rfl, rfl, rfl⟩, rfl, rfl⟩
  have hs' := hs.rests habides
  rw [← congrFun habides.handout_eq place]
  obtain ⟨hcached, rfl⟩ | ⟨-, u, htemp, rfl⟩ := runs_yieldClosureVar h
  · obtain ⟨hmodule, h, hh, hvar, hcounter⟩ := hs'.yields hcached
    refine hs'.append (hs'.distinct.again hh hvar ?_)
    rw [hcounter, Handout.counter_of_not_module hmodule]
    rfl
  · have hu : u.Logged (log ++ [handout _ place v]) := hs'.temp htemp
    obtain ⟨hmodule, hrests⟩ := not_isModule_of_temp htemp
    have hsame : u.Abides { u with builder := { u.builder with yieldClosure := some v } } :=
      ⟨.refl _, rfl, rfl, rfl⟩
    refine ⟨hu.distinct, fun hv => ?_, fun hv => hu.module hv⟩
    obtain rfl := Option.some.inj hv
    refine ⟨hmodule, _, List.mem_append_right _ (List.mem_singleton_self _), rfl, ?_⟩
    rw [hsame.tempScope, hrests.tempScope]
    exact Handout.counter_of_not_module hmodule

/-- Whatever is handed out, no number is given twice by one counter. -/
theorem hands (hs : s.Logged log) (h : s.Hands vs t) (place : Nat) :
    t.Logged (log ++ vs.map (s.handout place)) := by
  have hconcat {vs : List Variable} {u t : Session} {v : Variable} (hu : s.Hands vs u)
      (ht : t.Logged (log ++ vs.map (s.handout place) ++ [u.handout place v])) :
      t.Logged (log ++ (vs ++ [v]).map (s.handout place)) := by
    rw [hu.abides.handout_eq] at ht
    rwa [List.map_append, ← List.append_assoc, List.map_singleton]
  induction h with
  | nothing => rwa [List.map_nil, List.append_nil]
  | rests _ hrests ih => exact ih.rests hrests
  | temp hu h ih => exact hconcat hu (ih.temp h)
  | module hu h ih => exact hconcat hu (ih.currentModuleVar h)
  | yields hu h ih => exact hconcat hu (ih.yieldClosureVar h)

end Logged

end Session

namespace Act

open Session

/-- The variable that the operation is asked for. -/
def answered (s : Session) : Act → Option Variable
  | temp => (Session.temp s).1.toOption
  | currentModuleVar => (Session.currentModuleVar s).1.toOption
  | yieldClosureVar => (Session.yieldClosureVar s).1.toOption
  | _ => none

/-- Whatever an operation does, it hands out variables one after another. -/
theorem hands {a : Act} {s t : Session} {v : Option Unit}
    (h : Workshop.settled a.run s = some (v, t)) :
    ∃ vs, s.Hands vs t ∧ ∀ x ∈ a.answered s, x ∈ vs := by
  have hother (hnoted : a.noted? = none) (hanswered : a.answered s = none) :
      ∃ vs, s.Hands vs t ∧ ∀ x ∈ a.answered s, x ∈ vs := by
    have hperforms : Performs (fun _ => True) (fun _ => True) a.run :=
      a.performs usual_true hnoted (fun _ _ => trivial) fun _ _ => trivial
    obtain ⟨vs, hvs⟩ := hands_of_motions (hperforms (fun _ _ _ _ => trivial) h)
    exact ⟨vs, hvs, fun x hx => nomatch hanswered ▸ hx⟩
  have hasked {x : SessionM Variable} (hx : Uncatchable x) (hrun : a.run = do let _ ← x)
      (hanswered : a.answered s = (x s).1.toOption)
      (hhands : ∀ {y}, s.Runs x y t → s.Hands [y] t) :
      ∃ vs, s.Hands vs t ∧ ∀ x ∈ a.answered s, x ∈ vs := by
    rw [hrun] at h
    obtain ⟨y, hy⟩ := Workshop.settled_discard h
    obtain ⟨y, hy⟩ := hx.runs_of_settled hy
    refine ⟨[y], hhands hy, fun z hz => ?_⟩
    rw [hanswered, show x s = _ from hy] at hz
    cases hz
    exact List.mem_singleton_self y
  cases a with
  | note line =>
    obtain rfl := Workshop.eq_of_settled h
    refine ⟨[], HandsNone.hands ⟨⟨.refl _, rfl, rfl, rfl⟩, rfl, rfl⟩, ?_⟩
    exact fun x hx => nomatch hx
  | temp => exact hasked .temp rfl rfl fun hy => .temp .nothing hy
  | currentModuleVar => exact hasked .currentModuleVar rfl rfl fun hy => .module .nothing hy
  | yieldClosureVar => exact hasked .yieldClosureVar rfl rfl fun hy => .yields .nothing hy
  | _ => exact hother rfl rfl

end Act

/-- It is the same builder, at a later time. -/
structure Worker.Continues (k k' : Worker) : Prop where
  outer : k'.outer = k.outer
  scope : k'.builder.scope = k.builder.scope
  borrowsTemps : k'.builder.borrowsTemps = k.builder.borrowsTemps

namespace Workshop

open Session

variable {w w' w₀ : Workshop} {d : Doing} {ds : List Doing} {place q : Nat} {qs : List Nat}
  {k k' kq : Worker} {log : List Handout}

/-- The builder that each one was opened inside of is still at work. -/
def Housed (w : Workshop) : Prop :=
  ∀ place k, w.worker? place = some k → ∀ q ∈ k.outer.head?, (w.worker? q).isSome

theorem housed_iff : w.Housed ↔ ∀ place < w.workers.length, ∀ k ∈ w.worker? place,
    ∀ q ∈ k.outer.head?, (w.worker? q).isSome :=
  ⟨fun h place _ k hk => h place k hk, fun h place k hk => h place (lt_of_worker? hk) k hk⟩

instance (w : Workshop) : Decidable w.Housed := decidable_of_iff' _ housed_iff

/-- A run in which no builder is done before those that were opened inside of it, with all the
variables that are handed out in its course. -/
inductive HandsOut (w₀ : Workshop) : List Doing → List Handout → Workshop → Prop
  | nothing : HandsOut w₀ [] [] w₀
  | rests {ds : List Doing} {log : List Handout} {w w' : Workshop} {d : Doing} :
    HandsOut w₀ ds log w → (∀ place a, d ≠ .op (.act place a)) → w.perform d = some w' →
    w'.Housed → HandsOut w₀ (ds ++ [d]) log w'
  | acts {ds : List Doing} {log : List Handout} {w w' : Workshop} {place : Nat} {k : Worker}
      {a : Act} {t : Session} {v : Option Unit} {vs : List Variable} :
    HandsOut w₀ ds log w → w.worker? place = some k → settled a.run (w.session k) = some (v, t) →
    (w.session k).Hands vs t → (∀ x ∈ a.answered (w.session k), x ∈ vs) →
    w.perform (.op (.act place a)) = some w' → w'.Housed →
      HandsOut w₀ (ds ++ [.op (.act place a)]) (log ++ vs.map ((w.session k).handout place)) w'

/-- Builders were opened inside of earlier ones, which are still at work, and inside of all that
these were opened inside of. -/
def Nested (w : Workshop) : Prop :=
  ∀ place k, w.worker? place = some k → ∀ q qs, k.outer = q :: qs →
    q < place ∧ ∃ k', w.worker? q = some k' ∧ k'.outer = qs

theorem Turn.continues (h : Turn w d w' place k') (hk : w.worker? place = some k) :
    k.Continues k' := by
  cases h with
  | opens hplace => exact absurd (lt_of_worker? hk) (Nat.not_lt.mpr hplace.ge)
  | rests _ hk' =>
    obtain rfl := Option.some.inj (hk.symm.trans hk')
    exact ⟨rfl, rfl, rfl⟩
  | acts _ hk' ht hbuilder houter =>
    obtain rfl := Option.some.inj (hk.symm.trans hk')
    obtain ⟨vs, hvs, -⟩ := Act.hands ht
    exact ⟨houter, hbuilder ▸ hvs.abides.scope, hbuilder ▸ hvs.abides.borrowsTemps⟩

theorem Nested.perform (hw : w.Nested) (hd : w.perform d = some w') (hhoused : w'.Housed) :
    w'.Nested := by
  intro place k' hk' q qs houter
  have hbefore : q < place ∧ ∃ kq, w.worker? q = some kq ∧ kq.outer = qs := by
    cases turn_of_perform hd hk' with
    | opens hplace _ _ haround =>
      rcases haround with hnil | ⟨q', kq, hkq, hcons⟩
      · cases houter.symm.trans hnil
      · obtain ⟨rfl, rfl⟩ := List.cons.inj (houter.symm.trans hcons)
        exact ⟨hplace ▸ lt_of_worker? hkq, kq, hkq, rfl⟩
    | rests _ hk => exact hw place k' hk q qs houter
    | acts _ hk _ _ hsame => exact hw place _ hk q qs (hsame ▸ houter)
  obtain ⟨hlt, kq, hkq, hqs⟩ := hbefore
  obtain ⟨kq', hkq'⟩ := Option.isSome_iff_exists.mp (hhoused place k' hk' q (by rw [houter]; rfl))
  exact ⟨hlt, kq', hkq', ((turn_of_perform hd hkq').continues hkq).outer.trans hqs⟩

theorem tempScope_of_root (houter : k.outer = []) :
    (w.session k).tempScope = k.builder.scope := by
  unfold Session.tempScope session
  rw [houter]
  rfl

/-- A builder that borrows temporaries has them from where the one around it has them. -/
theorem Nested.tempScope (hw : w.Nested) (hk : w.worker? place = some k)
    (houter : k.outer = q :: qs) (hq : w.worker? q = some kq) :
    (w.session k).tempScope =
      if k.builder.borrowsTemps then (w.session kq).tempScope else k.builder.scope := by
  obtain ⟨-, kq', hkq', rfl⟩ := hw place k hk q qs houter
  obtain rfl := Option.some.inj (hq.symm.trans hkq')
  unfold Session.tempScope session
  rw [houter, List.filterMap_cons_some (by rw [hq]; rfl)]
  dsimp only [Builder.tempOwner]
  split <;> rfl

/-- As long as a builder is at work, it takes temporaries from the same scope. -/
theorem tempScope_of_perform (hw : w.Nested) (hw' : w'.Nested) (hd : w.perform d = some w')
    (hk : w.worker? place = some k) (hk' : w'.worker? place = some k') :
    (w'.session k').tempScope = (w.session k).tempScope := by
  induction houter : k.outer generalizing place k k' with
  | nil =>
    have hsame := (turn_of_perform hd hk').continues hk
    rw [tempScope_of_root houter, tempScope_of_root (hsame.outer.trans houter), hsame.scope]
  | cons q qs ih =>
    have hsame := (turn_of_perform hd hk').continues hk
    obtain ⟨-, kq, hkq, rfl⟩ := hw place k hk q qs houter
    obtain ⟨-, kq', hkq', -⟩ := hw' place k' hk' q _ (hsame.outer.trans houter)
    rw [hw.tempScope hk houter hkq, hw'.tempScope hk' (hsame.outer.trans houter) hkq',
      hsame.borrowsTemps, hsame.scope, ih hkq hkq' rfl]

/-- The log is that of all who are and were at work. -/
structure Recorded (log : List Handout) (w : Workshop) : Prop where
  staffed : w.Staffed ⟨False, False⟩
  nested : w.Nested
  apart : SetApart w.registry.temps log
  logged {place : Nat} {k : Worker} : w.worker? place = some k → (w.session k).Logged log
  opened {h : Handout} : h ∈ log → h.place < w.workers.length
  steady {h : Handout} {k : Worker} : h ∈ log → w.worker? h.place = some k →
    h.scope = k.builder.scope ∧ h.source = (w.session k).tempScope

theorem effect_of_staffed (hw : w.Staffed ⟨False, False⟩) (hd : w.perform d = some w') :
    w.Effect ⟨False, False⟩ d w' :=
  effect_of_perform hw (honours_nothing w [d]).1 hd

namespace Recorded

theorem empty (config : Config) : (Workshop.empty config).Recorded [] where
  staffed := .empty config
  nested _ _ hk := nomatch hk
  apart := ⟨(nomatch ·), (nomatch ·)⟩
  logged hk := nomatch hk
  opened hh := nomatch hh
  steady hh := nomatch hh

/-- What is in the log stays as it is. -/
theorem steady_of_perform (hw : w.Recorded log) (hd : w.perform d = some w') (hw' : w'.Nested)
    {h : Handout} (hh : h ∈ log) (hk' : w'.worker? h.place = some k') :
    h.scope = k'.builder.scope ∧ h.source = (w'.session k').tempScope := by
  have hold {k : Worker} (hk : w.worker? h.place = some k) :
      h.scope = k'.builder.scope ∧ h.source = (w'.session k').tempScope := by
    obtain ⟨hscope, hsource⟩ := hw.steady hh hk
    rw [tempScope_of_perform hw.nested hw' hd hk hk',
      ((turn_of_perform hd hk').continues hk).scope]
    exact ⟨hscope, hsource⟩
  cases turn_of_perform hd hk' with
  | opens hplace => exact absurd (hw.opened hh) (Nat.not_lt.mpr hplace.ge)
  | rests _ hk => exact hold hk
  | acts _ hk => exact hold hk

theorem rests (hw : w.Recorded log) (hne : ∀ place a, d ≠ .op (.act place a))
    (hd : w.perform d = some w') (hhoused : w'.Housed) : w'.Recorded log := by
  have heffect := effect_of_staffed hw.staffed hd
  have hnested := hw.nested.perform hd hhoused
  have hle := heffect.advances.temps_le
  refine ⟨hw.staffed.effect heffect, hnested, hw.apart.mono hle, fun {place k'} hk' => ?_,
    fun hh => (hw.opened hh).trans_le heffect.length_le, hw.steady_of_perform hd hnested⟩
  cases turn_of_perform hd hk' with
  | opens _ _ hopen =>
    obtain ⟨x, -, hb, -⟩ := eq_of_openBuilder hopen
    refine ⟨hw.apart.mono hle, fun hv => ?_, fun hv => ?_⟩
    · rw [session, hb] at hv
      cases hv
    · rw [session, hb] at hv
      cases hv
  | rests _ hk =>
    exact (hw.logged hk).of_same hle rfl (tempScope_of_perform hw.nested hnested hd hk hk') rfl rfl
  | acts hact => exact absurd hact (hne _ _)

theorem acts {a : Act} {t : Session} {v : Option Unit} {vs : List Variable} (hw : w.Recorded log)
    (hk : w.worker? place = some k) (ht : settled a.run (w.session k) = some (v, t))
    (hhands : (w.session k).Hands vs t) (hd : w.perform (.op (.act place a)) = some w')
    (hhoused : w'.Housed) : w'.Recorded (log ++ vs.map ((w.session k).handout place)) := by
  have heffect := effect_of_staffed hw.staffed hd
  have hnested := hw.nested.perform hd hhoused
  have hlogged := (hw.logged hk).hands hhands place
  have hregistry : w'.registry = t.registry := by
    obtain ⟨v₂, t₂, ht₂, rfl⟩ := settled_of_step hk hd
    obtain ⟨-, rfl⟩ := Prod.mk.inj (Option.some.inj (ht.symm.trans ht₂))
    rfl
  have hapart : SetApart w'.registry.temps (log ++ vs.map ((w.session k).handout place)) :=
    hregistry ▸ hlogged.distinct
  refine ⟨hw.staffed.effect heffect, hnested, hapart, fun {q k'} hk' => ?_, fun hh => ?_,
    fun {h k'} hh hk' => ?_⟩
  · have htemp {k₀ : Worker} (hk₀ : w.worker? q = some k₀) :=
      tempScope_of_perform hw.nested hnested hd hk₀ hk'
    have hle := heffect.advances.temps_le
    cases turn_of_perform hd hk' with
    | opens _ hopened => cases hopened
    | rests _ hk₀ =>
      have hsame := (hw.logged hk₀).of_same (t := w'.session k') hle rfl (htemp hk₀) rfl rfl
      exact hsame.append hapart
    | acts hact hk₀ ht₀ hbuilder =>
      obtain ⟨rfl, rfl⟩ := Op.act.inj (Doing.op.inj hact)
      obtain rfl := Option.some.inj (hk.symm.trans hk₀)
      obtain ⟨-, rfl⟩ := Prod.mk.inj (Option.some.inj (ht.symm.trans ht₀))
      refine hlogged.of_same (fun id => (hregistry ▸ le_rfl)) ?_ ?_ ?_ ?_
      · exact congrArg Builder.scope hbuilder
      · exact (htemp hk).trans hhands.abides.tempScope.symm
      · exact congrArg Builder.yieldClosure hbuilder
      · exact congrArg Builder.currentModule hbuilder
  · rcases List.mem_append.mp hh with hh | hh
    · exact (hw.opened hh).trans_le heffect.length_le
    · obtain ⟨x, -, rfl⟩ := List.mem_map.mp hh
      exact (lt_of_worker? hk).trans_le heffect.length_le
  · rcases List.mem_append.mp hh with hh | hh
    · exact hw.steady_of_perform hd hnested hh hk'
    · obtain ⟨x, -, rfl⟩ := List.mem_map.mp hh
      rw [tempScope_of_perform hw.nested hnested hd hk hk',
        ((turn_of_perform hd hk').continues hk).scope]
      exact ⟨rfl, rfl⟩

end Recorded

theorem HandsOut.recorded {config : Config} (h : (Workshop.empty config).HandsOut ds log w) :
    w.Recorded log := by
  generalize hw₀ : Workshop.empty config = w₀ at h
  induction h with
  | nothing => exact hw₀ ▸ .empty config
  | rests _ hne hd hhoused ih => exact ih.rests hne hd hhoused
  | acts _ hk ht hhands _ hd hhoused ih => exact ih.acts hk ht hhands hd hhoused

theorem HandsOut.performAll (h : w₀.HandsOut ds log w) : w₀.performAll ds = some w := by
  induction h with
  | nothing => rfl
  | rests _ _ hd _ ih => exact performAll_concat ih hd
  | acts _ _ _ _ _ hd _ ih => exact performAll_concat ih hd

/-- Whatever builders are asked for is in the log. -/
theorem HandsOut.answered {before after : List Doing} {a : Act} {u : Workshop} {x : Variable}
    (h : w₀.HandsOut ds log w) (hds : ds = before ++ .op (.act place a) :: after)
    (hu : w₀.performAll before = some u) (hk : u.worker? place = some k)
    (hx : x ∈ a.answered (u.session k)) : (u.session k).handout place x ∈ log := by
  induction h generalizing after with
  | nothing => exact absurd hds.symm (List.append_ne_nil_of_right_ne_nil _ (List.cons_ne_nil _ _))
  | rests _ hne _ _ ih =>
    rcases split_of_concat hds with ⟨-, heq⟩ | ⟨rest, hrest⟩
    · exact absurd heq.symm (hne _ _)
    · exact ih hrest
  | acts h hk' _ _ hanswered _ _ ih =>
    rcases split_of_concat hds with ⟨rfl, heq⟩ | ⟨rest, hrest⟩
    · obtain ⟨rfl, rfl⟩ := Op.act.inj (Doing.op.inj heq)
      obtain rfl := Option.some.inj (h.performAll.symm.trans hu)
      obtain rfl := Option.some.inj (hk'.symm.trans hk)
      exact List.mem_append_right _ (List.mem_map_of_mem (hanswered x hx))
    · exact List.mem_append_left _ (ih hrest)

/-- Every run hands out variables in this way. -/
theorem exists_handsOut (hrun : w₀.performAll ds = some w)
    (hhoused : ∀ before u, before <+: ds → w₀.performAll before = some u → u.Housed) :
    ∃ log, w₀.HandsOut ds log w := by
  have hlogs : w₀.performAll ds = some w ∧ ((∀ before u, before <+: ds →
      w₀.performAll before = some u → u.Housed) → ∃ log, w₀.HandsOut ds log w) := by
    refine run_of_doings (I := fun ds w => w₀.performAll ds = some w ∧ ((∀ before u, before <+: ds →
      w₀.performAll before = some u → u.Housed) → ∃ log, w₀.HandsOut ds log w)) ?_
      ⟨rfl, fun _ => ⟨[], .nothing⟩⟩ hrun (honours_nothing _ _)
    rintro ds d w w' ⟨hds, h⟩ - hd
    have hrun := performAll_concat hds hd
    refine ⟨hrun, fun hhoused => ?_⟩
    have hw' := hhoused _ w' (List.prefix_refl _) hrun
    obtain ⟨log, hlog⟩ := h fun before u hbefore =>
      hhoused before u (hbefore.trans (List.prefix_append _ _))
    by_cases hact : ∃ place a, d = .op (.act place a)
    · obtain ⟨place, a, rfl⟩ := hact
      cases steps_of_perform hd with
      | act hk ht =>
        obtain ⟨vs, hvs, hanswered⟩ := Act.hands ht
        exact ⟨_, .acts hlog hk ht hvs hanswered hd hw'⟩
    · exact ⟨log, .rests hlog (fun place a h => hact ⟨place, a, h⟩) hd hw'⟩
  exact hlogs.2 hhoused

/-- In any run in which builders are done after those that were opened inside of them, variables are
handed out one after another, and among them all that a builder is asked for. A builder that borrows
temporaries takes them from where the one around it takes them, for as long as both are at work. The
counters have passed the numbers of what was handed out. If two variables have one number, though
temporaries come from the same scope for both, one of them is the variable for the module of a
builder whose own scope is another one. -/
theorem numbers_of_run {config : Config} (hrun : (Workshop.empty config).performAll ds = some w)
    (hhoused : ∀ before u, before <+: ds → (Workshop.empty config).performAll before = some u →
      u.Housed) :
    (∃ log, (Workshop.empty config).HandsOut ds log w) ∧
    ∀ log, (Workshop.empty config).HandsOut ds log w →
      (∀ before place a after u k, ds = before ++ .op (.act place a) :: after →
        (Workshop.empty config).performAll before = some u → u.worker? place = some k →
          ∀ x ∈ a.answered (u.session k), (u.session k).handout place x ∈ log) ∧
      (∀ place k q, w.worker? place = some k → k.builder.borrowsTemps → q ∈ k.outer.head? →
        ∃ k', w.worker? q = some k' ∧ (w.session k).tempScope = (w.session k').tempScope) ∧
      (∀ h ∈ log, ∀ k, w.worker? h.place = some k →
        h.scope = k.builder.scope ∧ h.source = (w.session k).tempScope) ∧
      (∀ h ∈ log, h.var.index < w.registry.temps h.counter) ∧
      ∀ h ∈ log, ∀ h' ∈ log, h.source = h'.source → h.var ≠ h'.var → h.var.index = h'.var.index →
        h.IsForeign ∨ h'.IsForeign := by
  refine ⟨exists_handsOut hrun hhoused, fun log hlog => ?_⟩
  have hw := hlog.recorded
  refine ⟨fun _ _ _ _ _ _ hds hu hk _ hx => hlog.answered hds hu hk hx,
    fun place k q hk hborrows hq => ?_, fun h hh k hk => hw.steady hh hk,
    fun h hh => hw.apart.bound hh, fun h hh h' hh' hsource hne hindex => ?_⟩
  · obtain ⟨qs, houter⟩ : ∃ qs, k.outer = q :: qs := List.head?_eq_some_iff.mp hq
    obtain ⟨-, k', hk', -⟩ := hw.nested place k hk q qs houter
    refine ⟨k', hk', ?_⟩
    rw [hw.nested.tempScope hk houter hk', if_pos hborrows]
  · by_contra hnone
    obtain ⟨hown, hown'⟩ := not_or.mp hnone
    have hcounter := Handout.counter_of_not_isForeign hown
    rw [hsource, ← Handout.counter_of_not_isForeign hown'] at hcounter
    exact hne (hw.apart.unique hh hh' hcounter hindex)

/-- A method borrows temporaries from another one, and then needs its module. -/
def foreignModule : List Doing :=
  [.op (.newScope .method ⟨"m"⟩ "main.rb" 0 none), .op (.newScope .method ⟨"n"⟩ "main.rb" 1 none),
    .op (.openRoot ⟨0⟩), .op (.act 0 .temp), .op (.openInside 0 ⟨1⟩ true), .op (.act 1 .temp),
    .op (.act 1 .currentModuleVar)]

/-- The two builders share the counter for temporaries, but the module gets a number once more. -/
theorem numbers_of_run_foreignModule : ∃ w ∈ (Workshop.empty {}).performAll foreignModule,
    ∃ log, (Workshop.empty {}).HandsOut foreignModule log w ∧
      ⟨0, ⟨0⟩, ⟨0⟩, .temp (.plain 0)⟩ ∈ log ∧ ⟨1, ⟨1⟩, ⟨0⟩, .temp (.plain 1)⟩ ∈ log ∧
      ⟨1, ⟨1⟩, ⟨0⟩, .temp (.currentModule 0)⟩ ∈ log ∧
      ∀ h ∈ log, ∀ h' ∈ log, h.source = h'.source → h.var ≠ h'.var → h.var.index = h'.var.index →
        h.IsForeign ∨ h'.IsForeign := by
  have hsome : ((Workshop.empty {}).performAll foreignModule).isSome := by decide +kernel
  have hhoused : ∀ n ≤ foreignModule.length,
      ∀ u ∈ (Workshop.empty {}).performAll (foreignModule.take n), u.Housed := by
    decide +kernel
  obtain ⟨w, hw⟩ := Option.isSome_iff_exists.mp hsome
  obtain ⟨⟨log, hlog⟩, hall⟩ := numbers_of_run hw fun before u hbefore hu =>
    hhoused _ hbefore.length_le u (List.prefix_iff_eq_take.mp hbefore ▸ hu)
  obtain ⟨hanswered, -, -, -, hforeign⟩ := hall log hlog
  have hasked {n place : Nat} {a : Act} {h : Handout} (hds : foreignModule =
        foreignModule.take n ++ .op (.act place a) :: foreignModule.drop (n + 1))
      (hu : ∃ u ∈ (Workshop.empty {}).performAll (foreignModule.take n), ∃ k ∈ u.worker? place,
        ∃ x ∈ a.answered (u.session k), (u.session k).handout place x = h) : h ∈ log := by
    obtain ⟨u, hu, k, hk, x, hx, rfl⟩ := hu
    exact hanswered _ _ _ _ u k hds hu hk x hx
  exact ⟨w, hw, log, hlog, hasked (n := 3) rfl (by decide +kernel),
    hasked (n := 5) rfl (by decide +kernel), hasked (n := 6) rfl (by decide +kernel), hforeign⟩

end Workshop

end ScopeIR
