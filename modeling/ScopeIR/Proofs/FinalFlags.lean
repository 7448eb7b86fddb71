import ScopeIR.Proofs.Accounts
import ScopeIR.Proofs.Sealing

/-! The flags that are stored when a scope is finished. Over a whole run, nothing gets lost of what
its builder was given, what was inserted from outside and what its list and its closures contribute, and
nothing else comes in. -/

namespace ScopeIR

theorem FlagSet.needsDynscope_union (s t : ScopeFlags) :
    (s ∪ t).needsDynscope = (s.needsDynscope || t.needsDynscope) := by
  simp only [needsDynscope, ScopeFlag.dynscopeCauses, List.any_cons, List.any_nil, contains_union]
  ac_rfl

namespace Instr

/-- What other instructions than calls can reveal. -/
theorem contains_scopeFlags_of_not_call {i : Instr} {f : ScopeFlag} (hcall : ∀ c, i ≠ .call c)
    (h : i.scopeFlags.contains f) : f ∈ [ScopeFlag.hasBreakInstrs, .hasNonlocalReturns, .usesSuper,
      .usesZSuper, .requiresFrame, .receivesKeywordArgs] := by
  simp only [List.mem_cons, List.not_mem_nil, or_false]
  cases i with
  | call c => exact absurd rfl (hcall c)
  | receive _ parameter =>
    cases parameter <;> simp only [scopeFlags, FlagSet.contains_singleton, FlagSet.contains_empty] at h <;>
      grind
  | _ =>
    simp only [scopeFlags, FlagSet.contains_insert, FlagSet.contains_singleton,
      FlagSet.contains_empty] at h
    grind

/-- What the name of a called method can reveal. -/
theorem contains_namedCallFlags {name : String} {f : ScopeFlag} (h : (namedCallFlags name).contains f) :
    f ∈ [ScopeFlag.usesEval, .bindingHasEscaped, .requiresFrame] := by
  unfold namedCallFlags at h
  simp only [List.mem_cons, List.not_mem_nil, or_false]
  split_ifs at h <;> simp only [FlagSet.contains_insert, FlagSet.contains_singleton,
    FlagSet.contains_empty] at h <;> grind

end Instr

/-- What the closures of that list hand on. -/
def Registry.handedOn (g : Registry) (closures : List ScopeId) : ScopeFlags :=
  FlagSet.joined (fun c => (g.scope? c).elim ∅ Builder.closureFlags) closures

namespace Registry

variable {g g' : Registry}

/-- What is handed on is about the closures' exits only. -/
theorem contains_handedOn {closures : List ScopeId} {f : ScopeFlag}
    (h : (g.handedOn closures).contains f) :
    f ∈ [ScopeFlag.canReceiveBreaks, .canReceiveNonlocalReturns, .usesZSuper] := by
  rw [handedOn, FlagSet.contains_joined] at h
  obtain ⟨c, -, hc⟩ := h
  cases hx : g.scope? c with
  | none =>
    rw [hx] at hc
    cases (FlagSet.contains_empty f).symm.trans hc
  | some x =>
    rw [hx] at hc
    rcases (Builder.contains_closureFlags x f).mp hc with ⟨rfl, -⟩ | ⟨rfl, -⟩ | ⟨rfl, -⟩ <;> decide

/-- What is handed on does not change while no scope is finished. -/
theorem Serves.handedOn_eq (h : g.Serves g') (closures : List ScopeId) :
    g'.handedOn closures = g.handedOn closures := by
  have hone : ∀ c, (g'.scope? c).elim ∅ Builder.closureFlags =
      (g.scope? c).elim ∅ Builder.closureFlags := by
    intro c
    cases hx : g.scope? c with
    | some x =>
      obtain ⟨y, hy, hxy⟩ := h.lasts.old hx
      rw [hy]
      exact Builder.closureFlags_congr hxy.flags
    | none =>
      cases hy : g'.scope? c with
      | none => rfl
      | some y =>
        obtain ⟨x, hx', -⟩ := h.old_of_scope hy
        cases hx.symm.trans hx'
  simp only [handedOn, hone]

/-- What closures that were found hand on. -/
theorem joined_eq_handedOn {closures : List ScopeId} {xs : List Scope}
    (h : closures.map g.scope? = xs.map some) :
    FlagSet.joined Builder.closureFlags xs = g.handedOn closures := by
  induction closures generalizing xs with
  | nil =>
    obtain rfl := List.map_eq_nil_iff.mp h.symm
    rfl
  | cons id ids ih =>
    cases xs with
    | nil => cases h
    | cons x xs =>
      obtain ⟨hx, hxs⟩ := List.cons.inj h
      rw [FlagSet.joined, ih hxs, handedOn, handedOn, FlagSet.joined, hx]
      rfl

end Registry

namespace Builder

theorem finalFlags_eq (b : Builder) (closures : List Scope) (known : ScopeFlags)
    (hknown : known = b.flags ∪ shown b.instrs.toList ∪ FlagSet.joined closureFlags closures) :
    b.finalFlags closures =
      (if known.needsDynscope then known ∪ {.requiresDynscope} else known) ∪ {.flagsComputed} := by
  rw [finalFlags, ← Array.foldl_toList, FlagSet.foldl_union, FlagSet.foldl_union, hknown, shown]

end Builder

namespace Session

variable {s t : Session} {id : ScopeId} {given : ScopeFlags}

/-- What a finish stores: the list of the builder, which may have got a load of the block in front, and
the flags that follow from it, from the scope and from its closures. -/
structure Stores (s : Session) (id : ScopeId) (given : ScopeFlags) (x y : Scope) : Prop where
  id_eq : id = s.builder.scope
  old : s.registry.scope? id = some x
  unfinished : ¬ x.isFinished
  kind : y.kind = x.kind
  flags : ∃ list known, y.instrs = some list ∧
    known = given ∪ shown list ∪ x.flags ∪ shown list ∪ s.registry.handedOn y.closures ∧
    y.flags = (if known.needsDynscope then known ∪ {.requiresDynscope} else known) ∪ {.flagsComputed}

theorem stores_of_finish (h : s.Runs finish id t) (hs : s.builder.Accounts given) :
    ∃ x y, t.registry.scope? id = some y ∧ s.Stores id given x y := by
  obtain ⟨x, u, hx, hunfinished, -, hload, hstore⟩ := runs_finish h
  have hu : s.Does (fun _ => True) (loadBlock s.builder) := does_loadBlock fun _ => trivial
  rw [Does, hload] at hu
  have haccounts := (touching_loadBlock (b := s.builder) fun _ => trivial).accounts hs
  rw [hload] at haccounts
  obtain ⟨y, closures, flags, hy, hclosures, hflags, rfl, rfl⟩ := runs_storeFinal hstore
  obtain ⟨y', hy', hxy⟩ := hu.registry.lasts.old hx
  rw [← hu.scope] at hx hy'
  obtain rfl := Option.some.inj (hy.symm.trans hy')
  refine ⟨x, _, Registry.scope?_setScope_self hy, hu.scope, hx, hunfinished, hxy.kind, _, _, rfl,
    rfl, ?_⟩
  refine hflags.trans (Builder.finalFlags_eq _ _ _ ?_)
  rw [Registry.joined_eq_handedOn hclosures, ← hu.registry.handedOn_eq]
  exact congrArg (fun flags => flags ∪ x.flags ∪ shown u.builder.instrs.toList ∪ _) haccounts.symm

end Session

namespace Doing

/-- The flags that the doing inserts on the scope from outside. -/
def inserted (id : ScopeId) : Doing → ScopeFlags
  | insertFlags scope flags => if scope = id then flags else ∅
  | op _ => ∅

/-- The builder at the place does an operation that is so. -/
def isAct (what : Session → Act → Bool) (place : Nat) (w : Workshop) (d : Doing) : Bool :=
  d.place? = some place && (d.act? w).any fun done => what (w.session done.1) done.2

end Doing

/-- All that is inserted on the scope from outside. -/
def insertedOn (id : ScopeId) (ds : List Doing) : ScopeFlags := FlagSet.joined (Doing.inserted id) ds

namespace Workshop

open Session

variable {w w' w₀ : Workshop} {d : Doing} {ds : List Doing} {place : Nat} {id : ScopeId}
  {given given' : Nat → ScopeFlags} {outside outside' : ScopeId → ScopeFlags}

/-- Some operation of the builder at the place is so, in the course of the doings. -/
def didAct (what : Session → Act → Bool) (place : Nat) : Workshop → List Doing → Bool
  | _, [] => false
  | w, d :: ds => d.isAct what place w || (w.perform d).any fun w' => didAct what place w' ds

theorem didAct_concat {what : Session → Act → Bool} (h : w₀.performAll ds = some w) (d : Doing) :
    w₀.didAct what place (ds ++ [d]) = (w₀.didAct what place ds || d.isAct what place w) := by
  induction ds generalizing w₀ with
  | nil =>
    obtain rfl := Option.some.inj h
    simp only [List.nil_append, didAct, Option.any_false, Bool.or_false, Bool.false_or]
  | cons e ds ih =>
    obtain ⟨w₁, he, h⟩ := Option.bind_eq_some_iff.mp h
    simp only [List.cons_append, didAct, he, Option.any_some, ih h, Bool.or_assoc]

/-- What its loops, retries and refused super calls give the builder at the place. -/
def granted (w₀ : Workshop) (ds : List Doing) (place : Nat) : ScopeFlags :=
  (if w₀.didAct Act.addsLoop place ds then {.hasLoops} else ∅) ∪
    if w₀.didAct Act.refuses place ds then {.usesZSuper} else ∅

theorem granted_concat (h : w₀.performAll ds = some w) (d : Doing) (place : Nat) :
    w₀.granted (ds ++ [d]) place = w₀.granted ds place ∪
      ((if d.isAct Act.addsLoop place w then {.hasLoops} else ∅) ∪
        if d.isAct Act.refuses place w then {.usesZSuper} else ∅) := by
  have hor : ∀ (p q : Bool) (flags : ScopeFlags), (if p || q then flags else ∅) =
      (if p then flags else ∅) ∪ if q then flags else ∅ := by
    intro p q flags
    cases p <;> cases q <;> simp [FlagSet.union_empty, FlagSet.empty_union, FlagSet.union_self]
  rw [granted, didAct_concat h, didAct_concat h, hor, hor, FlagSet.union_union_comm, granted]

theorem granted_of_idle (h : w₀.performAll ds = some w) (hd : d.act? w = none) :
    w₀.granted (ds ++ [d]) = w₀.granted ds := by
  funext place
  have hact : ∀ what, d.isAct what place w = false := fun what => by
    rw [Doing.isAct, hd, Option.any_none, Bool.and_false]
  rw [granted_concat h, hact, hact]
  exact (congrArg _ (FlagSet.union_self ∅)).trans (FlagSet.union_empty _)

/-- Flags of builders and of unfinished scopes, by what was given to the one and inserted on the
other. -/
structure Accounted (given : Nat → ScopeFlags) (outside : ScopeId → ScopeFlags) (w : Workshop) :
    Prop where
  builder {place : Nat} {k : Worker} : w.worker? place = some k →
    ∃ x, w.registry.scope? k.builder.scope = some x ∧
      k.builder.Accounts (x.kind.initialFlags ∪ given place)
  scope {id : ScopeId} {x : Scope} : w.registry.scope? id = some x → ¬ x.isFinished →
    x.flags = x.kind.initialFlags ∪ outside id
  /-- Nobody works at places that are not taken. -/
  vacant {place : Nat} : w.workers.length ≤ place → given place = ∅
  missing {id : ScopeId} : w.registry.scope? id = none → outside id = ∅

namespace Accounted

theorem empty (config : Config) : Accounted (fun _ => ∅) (fun _ => ∅) (Workshop.empty config) where
  builder h := nomatch h
  scope h := nomatch h
  vacant _ := rfl
  missing _ := rfl

theorem lasts {g : Registry} (hw : w.Accounted given outside) (hg : w.registry.Lasts g) :
    ({ w with registry := g } : Workshop).Accounted given outside where
  builder hk := by
    obtain ⟨x, hx, hflags⟩ := hw.builder hk
    obtain ⟨y, hy, hxy⟩ := hg.old hx
    exact ⟨y, hy, hxy.kind ▸ hflags⟩
  scope {id y} hy hunfinished := by
    cases hx : w.registry.scope? id with
    | none => rw [(hg.new hx hy).1.flags, hw.missing hx, FlagSet.union_empty]
    | some x =>
      obtain ⟨y', hy', hxy⟩ := hg.old hx
      obtain rfl := Option.some.inj (hy.symm.trans hy')
      rw [hxy.flags, hxy.kind]
      exact hw.scope hx (hxy.isFinished_eq ▸ hunfinished)
  vacant := hw.vacant
  missing {id} hid := by
    cases hx : w.registry.scope? id with
    | none => exact hw.missing hx
    | some x =>
      obtain ⟨y, hy, -⟩ := hg.old hx
      cases hid.symm.trans hy

theorem addWorker {k : Worker} {x : Scope} (hw : w.Accounted given outside)
    (hx : w.registry.scope? k.builder.scope = some x) (hk : k.builder.Unused x) :
    (w.addWorker k).Accounted given outside where
  builder h := by
    rcases worker?_addWorker_cases h with ⟨rfl, rfl⟩ | h
    · refine ⟨x, hx, ?_⟩
      rw [hw.vacant le_rfl, FlagSet.union_empty, Builder.Accounts, hk.flags, hk.instrs]
      exact (FlagSet.union_empty _).symm
    · exact hw.builder h
  scope := hw.scope
  vacant h := hw.vacant <| by
    rw [Workshop.addWorker, List.length_append, List.length_singleton] at h
    omega
  missing := hw.missing

theorem clear (hw : w.Accounted given outside) (place : Nat) :
    (w.setWorker place none).Accounted given outside where
  builder h := by
    rcases worker?_of_setWorker h with h | h
    · cases h
    · exact hw.builder h
  scope := hw.scope
  vacant h := hw.vacant (by rwa [setWorker, List.length_set] at h)
  missing := hw.missing

/-- The builder at one place is given something more. -/
theorem setWorker {k : Worker} {x : Scope} (hw : w.Accounted given outside)
    (hplace : place < w.workers.length) (hothers : ∀ p, p ≠ place → given' p = given p)
    (hx : w.registry.scope? k.builder.scope = some x)
    (hk : k.builder.Accounts (x.kind.initialFlags ∪ given' place)) :
    (w.setWorker place (some k)).Accounted given' outside where
  builder h := by
    rcases worker?_setWorker_cases h with ⟨rfl, heq⟩ | ⟨hp, h⟩
    · obtain rfl := Option.some.inj heq
      exact ⟨x, hx, hk⟩
    · rw [hothers _ hp]
      exact hw.builder h
  scope := hw.scope
  vacant {p} h := by
    rw [Workshop.setWorker, List.length_set] at h
    rw [hothers p (by omega)]
    exact hw.vacant h
  missing := hw.missing

/-- One scope is replaced by one of its kind, which is finished or has the flags that it should. -/
theorem setScope {x y : Scope} (hw : w.Accounted given outside) (hx : w.registry.scope? id = some x)
    (hkind : y.kind = x.kind) (hothers : ∀ i, i ≠ id → outside' i = outside i)
    (hy : ¬ y.isFinished → y.flags = y.kind.initialFlags ∪ outside' id) :
    ({ w with registry := w.registry.setScope id y } : Workshop).Accounted given outside' where
  builder {_ k} hk := by
    obtain ⟨z, hz, hflags⟩ := hw.builder hk
    by_cases heq : k.builder.scope = id
    · obtain rfl := Option.some.inj (hx.symm.trans (heq ▸ hz))
      refine ⟨y, ?_, hkind ▸ hflags⟩
      rw [heq]
      exact Registry.scope?_setScope_self hx
    · exact ⟨z, (Registry.scope?_setScope_ne heq).trans hz, hflags⟩
  scope {i z} hz hunfinished := by
    by_cases heq : i = id
    · subst heq
      obtain rfl := Option.some.inj ((Registry.scope?_setScope_self hx).symm.trans hz)
      exact hy hunfinished
    · rw [hothers i heq]
      exact hw.scope ((Registry.scope?_setScope_ne heq).symm.trans hz) hunfinished
  vacant := hw.vacant
  missing {i} hi := by
    by_cases heq : i = id
    · subst heq
      cases (Registry.scope?_setScope_self hx).symm.trans hi
    · rw [hothers i heq]
      exact hw.missing ((Registry.scope?_setScope_ne heq).symm.trans hi)

end Accounted

/-- What an operation gives its builder is what it is granted. -/
theorem Accounted.act {o : Op} {done : Worker × Act}
    (hw : w.Accounted (w₀.granted ds) outside) (hds : w₀.performAll ds = some w)
    (hact : (Doing.op o).act? w = some done) (hd : w.step o = some w') :
    w'.Accounted (w₀.granted (ds ++ [.op o])) outside := by
  cases steps_of_step hd with
  | @act place a k v t hk ht =>
    have hgranted : ∀ p, w₀.granted (ds ++ [.op (.act place a)]) p =
        w₀.granted ds p ∪ if p = place then a.gained (w.session k) else ∅ := by
      intro p
      rw [granted_concat hds]
      by_cases hp : p = place
      · subst hp
        simp [Doing.isAct, Doing.place?, Doing.act?, hk, Act.gained]
      · simp [Doing.isAct, Doing.place?, Ne.symm hp, hp, FlagSet.union_empty]
    obtain ⟨x, hx, hflags⟩ := hw.builder hk
    have hwrites := Act.writes ht
    obtain ⟨y, hy, hxy⟩ := hwrites.registry.lasts.old hx
    refine (hw.lasts hwrites.registry.lasts).setWorker (lt_of_worker? hk) (fun p hp => ?_)
      (hwrites.scope ▸ hy) ?_
    · rw [hgranted, if_neg hp, FlagSet.union_empty]
    · rw [hgranted, if_pos rfl, ← FlagSet.union_assoc, hxy.kind]
      exact Act.accounts_of_settled ht hflags
  | _ => cases hact

theorem Accounted.perform (hw : w.Accounted (w₀.granted ds) (insertedOn · ds))
    (hds : w₀.performAll ds = some w) (hd : w.perform d = some w') :
    w'.Accounted (w₀.granted (ds ++ [d])) (insertedOn · (ds ++ [d])) := by
  have hinserted : ∀ id, insertedOn id (ds ++ [d]) = insertedOn id ds ∪ d.inserted id := fun id => by
    rw [insertedOn, FlagSet.joined_append, FlagSet.joined_singleton, insertedOn]
  simp only [hinserted]
  cases d with
  | insertFlags id flags =>
    obtain ⟨g, hg, rfl⟩ := insertFlags_of_perform hd
    obtain ⟨x, hx, hopen, rfl⟩ := Registry.eq_of_insertFlags hg
    rw [granted_of_idle hds rfl]
    refine hw.setScope hx rfl (fun i hi => ?_) fun _ => ?_
    · rw [Doing.inserted, if_neg (Ne.symm hi), FlagSet.union_empty]
    · rw [Doing.inserted, if_pos rfl, ← FlagSet.union_assoc]
      exact congrArg (· ∪ flags) (hw.scope hx hopen)
  | op o =>
    simp only [Doing.inserted, FlagSet.union_empty]
    cases hact : (Doing.op o).act? w with
    | some done => exact hw.act hds hact hd
    | none =>
      rw [granted_of_idle hds hact]
      cases moves_of_step hd with
      | manages hg => exact hw.lasts hg
      | opens hg hx hunused => exact (hw.lasts hg).addWorker hx hunused
      | acts hk =>
        rw [Doing.act?, hk] at hact
        cases hact
      | @finishes place k u id x flags hk hu =>
        have hdone := (hw.lasts hu.serves.lasts).clear place
        have hset := hdone.setScope (y := { x with instrs := some u.builder.instrs.toList, flags })
          hu.scope rfl (fun _ _ => rfl) fun h => absurd hu.flagsComputed h
        exact ⟨hset.builder, hset.scope, hset.vacant, hset.missing⟩
      | leaves hg => exact (hw.lasts hg.lasts).clear _

theorem accounted_of_run {config : Config} (hrun : (Workshop.empty config).performAll ds = some w) :
    w.Accounted ((Workshop.empty config).granted ds) (insertedOn · ds) := by
  refine (run_of_doings (p := ⟨False, False⟩) (I := fun ds w =>
    (Workshop.empty config).performAll ds = some w ∧
      w.Accounted ((Workshop.empty config).granted ds) (insertedOn · ds)) ?_ ?_ hrun
    (honours_nothing _ _)).2
  · rintro ds d w w' ⟨hds, hw⟩ - hd
    exact ⟨performAll_concat hds hd, hw.perform hds hd⟩
  · refine ⟨rfl, ?_⟩
    have hnothing : (Workshop.empty config).granted [] = fun _ => ∅ :=
      funext fun _ => FlagSet.union_empty ∅
    rw [hnothing]
    exact .empty config

/-- No instruction says that its scope needs a dynamic scope; that follows from what they say. -/
theorem not_requiresDynscope_shown (xs : List Instr) : ¬ (shown xs).contains .requiresDynscope := by
  rw [shown, FlagSet.contains_joined]
  rintro ⟨i, -, h⟩
  by_cases hcall : ∃ c, i = .call c
  · obtain ⟨c, rfl⟩ := hcall
    rw [Instr.scopeFlags, FlagSet.contains_union, Bool.or_eq_true] at h
    refine h.elim (fun h => absurd (Instr.contains_namedCallFlags h) (by decide)) fun h => ?_
    split at h <;> revert h <;> decide
  · exact absurd (Instr.contains_scopeFlags_of_not_call (not_exists.mp hcall) h) (by decide)

theorem finishes_of_toOption {u : Workshop} {k : Worker} (hk : u.worker? place = some k)
    (h : (finish (u.session k)).1.toOption = some id) : u.Finishes (.op (.finish place)) id := by
  refine ⟨place, k, _, rfl, hk, runs_of_ok ?_⟩
  cases hf : (finish (u.session k)).1 <;> rw [hf] at h <;> cases h
  rfl

theorem perform_of_finishes {u : Workshop} (h : u.Finishes (.op (.finish place)) id) :
    ∃ k t w, u.worker? place = some k ∧ (u.session k).Runs finish id t ∧
      u.perform (.op (.finish place)) = some w ∧ w.registry = t.registry := by
  obtain ⟨_, k, t, heq, hk, hruns⟩ := h
  cases heq
  have hsettled : settled finish (u.session k) = some (some id, t) := by rw [settled, hruns]
  exact ⟨k, t, _, hk, hruns, Steps.step (.finish hk hsettled), rfl⟩

/-- All that is known of a scope with this list when it is finished by the builder at the place, but for
whether it needs a dynamic scope. -/
def knownFlags (w₀ : Workshop) (ds : List Doing) (place : Nat) (id : ScopeId) (kind : ScopeKind)
    (list : List Instr) (handed : ScopeFlags) : ScopeFlags :=
  kind.initialFlags ∪ insertedOn id ds ∪
    (if w₀.didAct Act.addsLoop place ds then {.hasLoops} else ∅) ∪
    (if w₀.didAct Act.refuses place ds then {.usesZSuper} else ∅) ∪
    shown list ∪ handed ∪ {.flagsComputed}

theorem stored_of_finishes {config : Config} {u : Workshop}
    (hrun : (Workshop.empty config).performAll ds = some u)
    (hfinish : u.Finishes (.op (.finish place)) id) :
    ∃ w y list known, u.perform (.op (.finish place)) = some w ∧ w.registry.scope? id = some y ∧
      y.instrs = some list ∧
      known = (Workshop.empty config).knownFlags ds place id y.kind list
        (u.registry.handedOn y.closures) ∧
      y.flags = if known.needsDynscope then known ∪ {.requiresDynscope} else known := by
  obtain ⟨k, t, w, hk, hruns, hperform, hregistry⟩ := perform_of_finishes hfinish
  have haccounted := accounted_of_run hrun
  obtain ⟨x₀, hx₀, hbuilder⟩ := haccounted.builder hk
  obtain ⟨x, y, hy, hstores⟩ := stores_of_finish hruns hbuilder
  obtain rfl : x₀ = x := Option.some.inj (hx₀.symm.trans (hstores.id_eq ▸ hstores.old))
  obtain ⟨list, known, hlist, hknown, hflags⟩ := hstores.flags
  rw [haccounted.scope hstores.old hstores.unfinished, granted] at hknown
  have hneeds : (known ∪ {.flagsComputed}).needsDynscope = known.needsDynscope :=
    (FlagSet.needsDynscope_union _ _).trans (Bool.or_false _)
  refine ⟨w, y, list, known ∪ {.flagsComputed}, hperform, hregistry ▸ hy, hlist, ?_, ?_⟩
  · rw [hknown, hstores.kind, knownFlags]
    ac_rfl
  · rw [hflags, hneeds]
    split <;> ac_rfl

/-- Neither kinds of scopes nor loops, refused super calls and closures say that a dynamic scope is needed
or that blocks get at variables. -/
theorem contains_knownFlags_iff {kind : ScopeKind} {list : List Instr} {g : Registry}
    {closures : List ScopeId} {f : ScopeFlag}
    (hf : f ∈ [ScopeFlag.requiresDynscope, .canCaptureCallersBinding]) :
    (w₀.knownFlags ds place id kind list (g.handedOn closures)).contains f ↔
      (insertedOn id ds).contains f ∨ (shown list).contains f := by
  have hgiven : f ∉ [.hasLoops, .usesZSuper, .flagsComputed] := by revert f; decide
  have hinitial : kind.initialFlags.contains f = false := by
    clear hgiven
    revert f
    cases kind <;> decide
  have hhanded : (g.handedOn closures).contains f = false := by
    refine Bool.eq_false_iff.mpr fun h => absurd (Registry.contains_handedOn h) ?_
    clear h hgiven hinitial
    revert f
    decide
  simp only [List.mem_cons, List.not_mem_nil, or_false, not_or] at hgiven
  have hother : ∀ {f' : ScopeFlag}, f ≠ f' → ({f'} : ScopeFlags).contains f = false := fun hne => by
    rw [Bool.eq_false_iff, ne_eq, FlagSet.contains_singleton]
    exact Ne.symm hne
  have hite : ∀ (p : Bool) {f' : ScopeFlag}, f ≠ f' →
      (if p then {f'} else ∅ : ScopeFlags).contains f = false := by
    rintro (_ | _) f' hne
    · exact FlagSet.contains_empty f
    · exact hother hne
  simp only [knownFlags, FlagSet.contains_union, hinitial, hite _ hgiven.1, hite _ hgiven.2.1, hhanded,
    hother hgiven.2.2, Bool.false_or, Bool.or_false, Bool.or_eq_true]

/-- What a successful finish stores: the flags of the kind, those that were inserted from outside, that of
loops and retries, that of refused super calls, what the stored instructions and the closures that are
then registered contribute, that the flags are final, and nothing else but that a dynamic scope is needed,
which is there exactly where one of its causes is. -/
theorem flags_of_finish {config : Config} {u : Workshop}
    (hrun : (Workshop.empty config).performAll ds = some u)
    (hfinish : u.Finishes (.op (.finish place)) id)
    (houtside : ¬ (insertedOn id ds).contains .requiresDynscope) :
    ∃ w y list known, u.perform (.op (.finish place)) = some w ∧ w.registry.scope? id = some y ∧
      y.instrs = some list ∧
      known = y.kind.initialFlags ∪ insertedOn id ds ∪
        (if (Workshop.empty config).didAct Act.addsLoop place ds then {.hasLoops} else ∅) ∪
        (if (Workshop.empty config).didAct Act.refuses place ds then {.usesZSuper} else ∅) ∪
        shown list ∪ u.registry.handedOn y.closures ∪ {.flagsComputed} ∧
      ¬ known.contains .requiresDynscope ∧
      (y.flags = known ∨ y.flags = known ∪ {.requiresDynscope}) ∧
      (y.flags.contains .requiresDynscope ↔ ∃ f ∈ [.hasNonlocalReturns, .canCaptureCallersBinding,
        .canReceiveNonlocalReturns, .bindingHasEscaped], y.flags.contains f) := by
  obtain ⟨w, y, list, known, hperform, hy, hlist, hknown, hflags⟩ := stored_of_finishes hrun hfinish
  have hrequires : ¬ known.contains .requiresDynscope :=
    hknown ▸ (contains_knownFlags_iff (by decide)).not.mpr
      (not_or.mpr ⟨houtside, not_requiresDynscope_shown list⟩)
  refine ⟨w, y, list, known, hperform, hy, hlist, hknown, hrequires, ?_, ?_⟩
  · rw [hflags]
    split
    · exact .inr rfl
    · exact .inl rfl
  · have hcauses : (∃ f ∈ ScopeFlag.dynscopeCauses, y.flags.contains f) ↔ y.flags.needsDynscope :=
      List.any_eq_true.symm
    refine Iff.trans ?_ hcauses.symm
    rw [hflags]
    split
    · next hneeds =>
      rw [FlagSet.needsDynscope_union, hneeds, FlagSet.contains_union, Bool.or_eq_true,
        FlagSet.contains_singleton]
      exact iff_of_true (.inr rfl) rfl
    · next hneeds => exact iff_of_false hrequires hneeds

/-- A script with a block that breaks, a loop, a super call that finds no method and an evaluation, and
which is marked from outside. -/
def busyScript : List Doing :=
  [.op (.newScope .scriptBody ⟨"main"⟩ "main.rb" 0 none),
    .op (.newScope .closure ⟨"_CLOSURE_"⟩ "main.rb" 1 (some ⟨0⟩)), .op (.openRoot ⟨0⟩),
    .op (.openInside 0 ⟨1⟩ false), .op (.act 1 (.break .nil)), .op (.finish 1),
    .insertFlags ⟨0⟩ {.receivesKeywordArgs}, .op (.act 0 .pushLoop), .op (.act 0 (.zsuper .nullBlock)),
    .op (.act 0 (.call (.temp (.plain 7)) .normal (.var .self) ⟨"eval"⟩ [] .nullBlock ∅))]

theorem flags_of_finish_busyScript : ∃ u w y,
    (Workshop.empty {}).performAll busyScript = some u ∧ u.Finishes (.op (.finish 0)) ⟨0⟩ ∧
    u.perform (.op (.finish 0)) = some w ∧ w.registry.scope? ⟨0⟩ = some y ∧
    y.flags = {.receivesKeywordArgs, .hasLoops, .usesZSuper, .canReceiveBreaks, .usesEval,
      .bindingHasEscaped, .requiresDynscope, .flagsComputed} ∧
    ∃ f ∈ [.hasNonlocalReturns, .canCaptureCallersBinding, .canReceiveNonlocalReturns,
      .bindingHasEscaped], y.flags.contains f := by
  have hsome : ((Workshop.empty {}).performAll busyScript).isSome := by decide +kernel
  have hfacts : ∀ u ∈ (Workshop.empty {}).performAll busyScript, ∃ k ∈ u.worker? 0,
      (finish (u.session k)).1.toOption = some ⟨0⟩ ∧ ∃ w ∈ u.perform (.op (.finish 0)),
        w.registry.flags ⟨0⟩ = {.receivesKeywordArgs, .hasLoops, .usesZSuper, .canReceiveBreaks,
          .usesEval, .bindingHasEscaped, .requiresDynscope, .flagsComputed} := by
    decide +kernel
  obtain ⟨u, hu⟩ := Option.isSome_iff_exists.mp hsome
  obtain ⟨k, hk, hok, w', hw', hflags⟩ := hfacts u hu
  have hfinish : u.Finishes (.op (.finish 0)) ⟨0⟩ := finishes_of_toOption hk hok
  have houtside : ¬ (insertedOn ⟨0⟩ busyScript).contains .requiresDynscope := by decide +kernel
  obtain ⟨w, y, -, -, hw, hy, -, -, -, -, hdynscope⟩ := flags_of_finish hu hfinish houtside
  obtain rfl := Option.some.inj (hw.symm.trans hw')
  rw [Registry.flags, hy] at hflags
  replace hflags : y.flags = _ := hflags
  exact ⟨u, w, y, hu, hfinish, hw, hy, hflags, hdynscope.mp (by rw [hflags]; decide)⟩

end Workshop

end ScopeIR
