import ScopeIR.Proofs.Marks

/-! Transfers out of closures arrive in scopes that are marked for them, if scopes are finished from
the inside out. -/

namespace ScopeIR

/-- In this scope, breaks end the block that it is, and returns from a method leave another scope. -/
def Instr.Fits (x : Scope) : Instr → Prop
  | .breakOut _ p => x.kind.isClosure ∧ x.parent = some p
  | .nonlocalReturn _ (some _) => x.kind ≠ .method
  | _ => True

instance (x : Scope) : DecidablePred (Instr.Fits x)
  | .breakOut _ p => inferInstanceAs (Decidable (x.kind.isClosure ∧ x.parent = some p))
  | .nonlocalReturn _ (some _) => inferInstanceAs (Decidable (x.kind ≠ .method))
  | .nonlocalReturn _ none | .label _ | .jump _ | .nop | .branch .. | .lineNumber .. | .tracePoint _
  | .copy .. | .call _ | .zsuper _ | .aliasMethod .. | .searchConst .. | .searchModuleConst ..
  | .classVarModule .. | .getClassVar .. | .putClassVar .. | .getGlobal .. | .putGlobal ..
  | .helperCall .. | .loadImplicitClosure _ | .receive .. | .regionStart _ | .regionEnd
  | .receiveException _ | .raise _ | .threadPoll | .checkLocalJump _ | .ret _ => .isTrue trivial

theorem carried_fits (x : Scope) : Carried (Instr.Fits x) where
  rename {i} ρ h := by
    cases i with
    | nonlocalReturn value method => cases method <;> exact h
    | _ => exact h
  of_not_transfer {i} h := by
    cases i with
    | breakOut | nonlocalReturn => exact absurd rfl h
    | _ => trivial

theorem fits_congr {x y : Scope} (hkind : y.kind = x.kind) (hparent : y.parent = x.parent) :
    Instr.Fits y = Instr.Fits x := by
  funext i
  cases i with
  | nonlocalReturn value method => cases method <;> simp only [Instr.Fits, hkind]
  | _ => simp only [Instr.Fits, hkind, hparent]

theorem Session.transfers_fits {s : Session} {x : Scope}
    (hx : s.registry.scope? s.builder.scope = some x) : s.Transfers (Instr.Fits x) where
  breakOut _ hy hkind hparent := by
    obtain rfl := Option.some.inj (hx.symm.trans hy)
    exact ⟨hkind, hparent⟩
  nonlocalReturn _ method hy hkind := by
    obtain rfl := Option.some.inj (hx.symm.trans hy)
    cases method with
    | none => trivial
    | some name =>
      intro hmethod
      rw [hmethod] at hkind
      rcases hkind with h | h <;> cases h

theorem Session.Writes.all {P : Instr → Prop} {r : Prop} {s t : Session} (h : s.Writes P r t)
    (hs : s.builder.Holds P) (hlist : ∀ i ∈ s.builder.instrs.toList, P i) :
    ∀ i ∈ t.builder.instrs.toList, P i := by
  obtain ⟨front, back, ht, -, hnew⟩ := h.list
  intro i hi
  rw [ht] at hi
  rcases List.mem_append.mp hi with hi | hi
  · rcases List.mem_append.mp hi with hi | hi
    · exact hnew hs i (List.mem_append_left _ hi)
    · exact hlist i hi
  · exact hnew hs i (List.mem_append_right _ hi)

namespace Registry

variable {g g' : Registry} {id : ScopeId} {x y : Scope}

/-- Scopes have their numbers, and closures are among the closures of their parents. -/
structure Related (g : Registry) : Prop where
  id_eq {id : ScopeId} {x : Scope} : g.scope? id = some x → x.id = id
  closures {id p : ScopeId} {x : Scope} : g.scope? id = some x → x.parent = some p →
    ∃ y, g.scope? p = some y ∧ (x.kind.isClosureLike → id ∈ y.closures)

theorem Related.lasts (hg : g.Related) (h : g.Lasts g') : g'.Related where
  id_eq {id y} hy := by
    cases hx : g.scope? id with
    | none => exact (h.new hx hy).2.1
    | some x =>
      obtain ⟨y', hy', hxy⟩ := h.old hx
      obtain rfl := Option.some.inj (hy.symm.trans hy')
      rw [hxy.id, hg.id_eq hx]
  closures {id p y} hy hp := by
    cases hx : g.scope? id with
    | none => exact ((h.new hx hy).2.2 p hp).2
    | some x =>
      obtain ⟨y', hy', hxy⟩ := h.old hx
      obtain rfl := Option.some.inj (hy.symm.trans hy')
      obtain ⟨z, hz, hclosures⟩ := hg.closures hx (hxy.parent ▸ hp)
      obtain ⟨z', hz', hzz⟩ := h.old hz
      exact ⟨z', hz', fun hkind => hzz.closures (hclosures (hxy.kind ▸ hkind))⟩

theorem Related.setScope (hg : g.Related) (hx : g.scope? id = some x) (hid : y.id = x.id)
    (hkind : y.kind = x.kind) (hparent : y.parent = x.parent) (hclosures : y.closures = x.closures) :
    (g.setScope id y).Related := by
  have hold : ∀ {id' : ScopeId} {z : Scope}, (g.setScope id y).scope? id' = some z →
      ∃ z₀, g.scope? id' = some z₀ ∧ z.id = z₀.id ∧ z.kind = z₀.kind ∧ z.parent = z₀.parent := by
    intro id' z hz
    by_cases heq : id' = id
    · subst heq
      obtain rfl := Option.some.inj ((scope?_setScope_self hx).symm.trans hz)
      exact ⟨x, hx, hid, hkind, hparent⟩
    · exact ⟨z, (scope?_setScope_ne heq).symm.trans hz, rfl, rfl, rfl⟩
  constructor
  · intro id' z hz
    obtain ⟨z₀, hz₀, hid, -⟩ := hold hz
    rw [hid, hg.id_eq hz₀]
  · intro id' p z hz hp
    obtain ⟨z₀, hz₀, -, hkind, hparent⟩ := hold hz
    obtain ⟨q, hq, hmem⟩ := hg.closures hz₀ (hparent ▸ hp)
    rw [hkind]
    by_cases heq : p = id
    · subst heq
      obtain rfl := Option.some.inj (hx.symm.trans hq)
      exact ⟨y, scope?_setScope_self hx, hclosures ▸ hmem⟩
    · exact ⟨q, (scope?_setScope_ne heq).trans hq, hmem⟩

/-- Only closures lie between the scope and its method, and it is a closure if it is not the method. -/
def ClosedToMethod (g : Registry) (c : ScopeId) : Prop :=
  ∃ chain, g.lexicalChain c = .ok chain ∧
    ∀ y ∈ chain.takeWhile (·.kind ≠ .method), y.kind.isClosureLike

/-- The scopes whose parent this one is. -/
def children (g : Registry) (p : ScopeId) : List ScopeId :=
  (g.scopes.toList.filter (·.parent = some p)).map (·.id)

theorem Related.mem_children {p : ScopeId} (hg : g.Related) (hx : g.scope? id = some x)
    (hp : x.parent = some p) : id ∈ g.children p := by
  have hmem : x ∈ g.scopes.toList := Array.mem_toList_iff.mpr (Array.mem_of_getElem? hx)
  refine List.mem_map.mpr ⟨x, List.mem_filter.mpr ⟨hmem, ?_⟩, hg.id_eq hx⟩
  exact decide_eq_true hp

end Registry

namespace Workshop

open Registry

variable {w w' final : Workshop} {op : Op}

/-- Scopes that are finished by the step have only scopes inside that were finished before. -/
def FinishesInside (final w : Workshop) (_ : Op) (w' : Workshop) : Prop :=
  ∀ p, w'.registry.Finished p → ¬ w.registry.Finished p →
    ∀ c ∈ final.registry.children p, w.registry.Finished c

/-- The transfers that the operation is given fit the scope of its builder. -/
def GivesFitting (w : Workshop) : Op → Prop
  | .act place act => ∀ k ∈ w.worker? place, ∀ x ∈ w.registry.scope? k.builder.scope,
    ∀ i ∈ act.given, i.Fits x
  | _ => True

instance : Decidable (FinishesInside final w op w') :=
  inferInstanceAs (Decidable (∀ p, w'.registry.Finished p → ¬ w.registry.Finished p →
    ∀ c ∈ final.registry.children p, w.registry.Finished c))

instance : DecidablePred w.GivesFitting
  | .act place act => inferInstanceAs (Decidable (∀ k ∈ w.worker? place,
    ∀ x ∈ w.registry.scope? k.builder.scope, ∀ i ∈ act.given, i.Fits x))
  | .newScope .. | .newLabel .. | .nextTemp _ | .setRefined .. | .openRoot _ | .openInside ..
  | .finish _ | .drop _ => .isTrue trivial

/-- Transfers fit where they wait and where they are stored. -/
structure Fitting (w : Workshop) : Prop extends w.Tracks where
  holds {place : Nat} {k : Worker} {x : Scope} : w.worker? place = some k →
    w.registry.scope? k.builder.scope = some x →
      k.builder.Holds (Instr.Fits x) ∧ ∀ i ∈ k.builder.instrs.toList, i.Fits x
  stored {id : ScopeId} {x : Scope} : w.registry.scope? id = some x →
    ∀ i ∈ x.instrs.getD [], i.Fits x

theorem Fitting.empty (config : Config) : (Workshop.empty config).Fitting where
  toTracks := .empty config
  holds h := nomatch h
  stored h := nomatch h

/-- The list of a scope that is finished fits it. -/
theorem Fitting.of_completes {place : Nat} {k : Worker} {u : Session} {id : ScopeId} {x : Scope}
    {flags : ScopeFlags} (hw : w.Fitting) (hk : w.worker? place = some k)
    (hu : (w.session k).Completes u id x flags) :
    ∀ i ∈ u.builder.instrs.toList, i.Fits x := by
  obtain ⟨x₀, hx₀, -, hlasts⟩ := hw.old_of_completes hk hu
  rw [hu.id_eq] at hx₀
  obtain ⟨hholds, hlist⟩ := hw.holds hk hx₀
  rw [fits_congr hlasts.kind hlasts.parent]
  exact (hu.writes fun _ => trivial).all hholds hlist

/-- Where scopes only last, what fitted them still does. -/
theorem Fitting.stored_of_lasts {g : Registry} {id : ScopeId} {y : Scope} (hw : w.Fitting)
    (hg : w.registry.Lasts g) (hy : g.scope? id = some y) : ∀ i ∈ y.instrs.getD [], i.Fits y := by
  cases hx : w.registry.scope? id with
  | none =>
    rw [(hg.new hx hy).1.instrs]
    exact fun _ hi => nomatch hi
  | some x =>
    obtain ⟨y', hy', hxy⟩ := hg.old hx
    obtain rfl := Option.some.inj (hy.symm.trans hy')
    rw [fits_congr hxy.kind hxy.parent, hxy.instrs]
    exact hw.stored hx

theorem Fitting.holds_of_lasts {g : Registry} {place : Nat} {k : Worker} {y : Scope} (hw : w.Fitting)
    (hg : w.registry.Lasts g) (hk : w.worker? place = some k)
    (hy : g.scope? k.builder.scope = some y) :
    k.builder.Holds (Instr.Fits y) ∧ ∀ i ∈ k.builder.instrs.toList, i.Fits y := by
  obtain ⟨x, hx, -⟩ := hw.worker hk
  obtain ⟨y', hy', hxy⟩ := hg.old hx
  obtain rfl := Option.some.inj (hy.symm.trans hy')
  rw [fits_congr hxy.kind hxy.parent]
  exact hw.holds hk hx

theorem Fitting.step (hw : w.Fitting) (h : w.Moves op w') (hgives : w.GivesFitting op) :
    w'.Fitting := by
  have htracks := hw.toTracks.step h
  cases h with
  | manages hg => exact ⟨htracks, hw.holds_of_lasts hg, hw.stored_of_lasts hg⟩
  | @opens _ g b x outer hg hx hb =>
    refine ⟨htracks, fun {place k y} hk hy => ?_, hw.stored_of_lasts hg⟩
    rcases worker?_of_addWorker hk with rfl | hk
    · refine ⟨fun f hf => ?_, fun i hi => ?_⟩
      · rw [hb.ensures, hb.ensureBodies] at hf
        cases hf
      · rw [hb.instrs] at hi
        cases hi
    · exact hw.holds_of_lasts hg hk hy
  | @acts place k act v t hk ht =>
    have hserves := (Act.writes ht).registry
    refine ⟨htracks, fun {place' k' y} hk' hy => ?_, hw.stored_of_lasts hserves.lasts⟩
    rcases worker?_of_setWorker hk' with hk' | hk'
    · obtain rfl := Option.some.inj hk'
      obtain ⟨x, hx, -⟩ := hw.worker hk
      obtain ⟨hfits, hlist⟩ := hw.holds hk hx
      have hwrites := act.writes_of_settled (carried_fits x) (Session.transfers_fits hx)
        (hgives k hk x hx) ht
      obtain ⟨y', hy', hxy⟩ := hserves.lasts.old hx
      have hy : t.registry.scope? t.builder.scope = some y := hy
      rw [hwrites.scope] at hy
      obtain rfl := Option.some.inj (hy.symm.trans hy')
      rw [fits_congr hxy.kind hxy.parent]
      exact ⟨hwrites.holds hfits, hwrites.all hfits hlist⟩
    · exact hw.holds_of_lasts hserves.lasts hk' hy
  | @finishes place k u id x flags hk hu =>
    have hself : ∀ {y : Scope}, (u.registry.setScope id y).scope? id = some y :=
      scope?_setScope_self hu.scope
    have hother : ∀ {y : Scope} {id' : ScopeId}, id' ≠ id →
        (u.registry.setScope id y).scope? id' = u.registry.scope? id' := scope?_setScope_ne
    have hfits : Instr.Fits { x with instrs := some u.builder.instrs.toList, flags } =
        Instr.Fits x := fits_congr rfl rfl
    refine ⟨htracks, fun {place' k' y} hk' hy => ?_, fun {id' y} hy => ?_⟩
    · have hk' := (worker?_of_setWorker hk').resolve_left nofun
      by_cases hid : k'.builder.scope = id
      · have hx : u.registry.scope? k'.builder.scope = some x := hid ▸ hu.scope
        rw [hid] at hy
        obtain rfl := Option.some.inj (hself.symm.trans hy)
        rw [hfits]
        exact hw.holds_of_lasts hu.serves.lasts hk' hx
      · exact hw.holds_of_lasts hu.serves.lasts hk' ((hother hid).symm.trans hy)
    · by_cases hid : id' = id
      · subst hid
        obtain rfl := Option.some.inj (hself.symm.trans hy)
        rw [hfits]
        exact hw.of_completes hk hu
      · exact hw.stored_of_lasts hu.serves.lasts ((hother hid).symm.trans hy)
  | leaves hg =>
    refine ⟨htracks, fun hk hy => ?_, hw.stored_of_lasts hg.lasts⟩
    exact hw.holds_of_lasts hg.lasts ((worker?_of_setWorker hk).resolve_left nofun) hy

/-- What finished scopes know of the finished closures in them. -/
structure Receives (w : Workshop) : Prop extends w.Fitting where
  related : w.registry.Related
  received {p c : ScopeId} {x y : Scope} {f : ScopeFlag} : w.registry.scope? p = some x →
    x.isFinished → w.registry.scope? c = some y → y.isFinished → y.parent = some p →
      y.kind.isClosureLike → f.isTracked → (Builder.closureFlags y).contains f → x.flags.contains f
  dynscope {p : ScopeId} {x : Scope} : w.registry.scope? p = some x → x.isFinished →
    x.flags.contains .canReceiveNonlocalReturns → x.flags.contains .requiresDynscope

/-- What is inside of finished scopes was finished before this step. -/
def InsideFinished (w w' : Workshop) : Prop :=
  ∀ {p c : ScopeId} {y : Scope}, w'.registry.Finished p → w'.registry.scope? c = some y →
    y.parent = some p → w.registry.Finished c

theorem related_of_moves (hw : w.registry.Related) (h : w.Moves op w') : w'.registry.Related := by
  cases h with
  | manages hg => exact hw.lasts hg
  | opens hg => exact hw.lasts hg
  | acts _ ht => exact hw.lasts (Act.writes ht).registry.lasts
  | finishes _ hu => exact (hw.lasts hu.serves.lasts).setScope hu.scope rfl rfl rfl rfl
  | leaves hg => exact hw.lasts hg.lasts

/-- Scopes stay where they are. -/
theorem parent_of_moves {id : ScopeId} {x : Scope} (hx : w.registry.scope? id = some x)
    (h : w.Moves op w') : ∃ y, w'.registry.scope? id = some y ∧ y.parent = x.parent := by
  have hlasts : ∀ {g : Registry}, w.registry.Lasts g →
      ∃ y, g.scope? id = some y ∧ y.parent = x.parent := by
    intro g hg
    obtain ⟨y, hy, hxy⟩ := hg.old hx
    exact ⟨y, hy, hxy.parent⟩
  cases h with
  | manages hg => exact hlasts hg
  | opens hg => exact hlasts hg
  | acts _ ht => exact hlasts (Act.writes ht).registry.lasts
  | leaves hg => exact hlasts hg.lasts
  | @finishes place k u id' z flags _ hu =>
    obtain ⟨y, hy, hxy⟩ := hlasts hu.serves.lasts
    by_cases hid : id = id'
    · subst hid
      obtain rfl := Option.some.inj (hu.scope.symm.trans hy)
      exact ⟨_, scope?_setScope_self hu.scope, hxy⟩
    · exact ⟨y, (scope?_setScope_ne hid).trans hy, hxy⟩

theorem mem_children_of_run {ops : List Op} {p c : ScopeId} {x : Scope} (hw : w.registry.Related)
    (hx : w.registry.scope? c = some x) (hp : x.parent = some p) (hrun : w.run ops = some final) :
    c ∈ final.registry.children p := by
  have hlast := run_induction (I := fun v => v.registry.Related ∧
      ∃ y, v.registry.scope? c = some y ∧ y.parent = some p) ?_ ⟨hw, x, hx, hp⟩ hrun
    (throughout_true _ ops)
  · obtain ⟨hrelated, y, hy, hp⟩ := hlast
    exact hrelated.mem_children hy hp
  · rintro v op v' ⟨hv, y, hy, hp⟩ h -
    obtain ⟨z, hz, hzy⟩ := parent_of_moves hy h
    exact ⟨related_of_moves hv h, z, hz, hzy.trans hp⟩

namespace Receives

theorem empty (config : Config) : (Workshop.empty config).Receives where
  toFitting := .empty config
  related := ⟨nofun, nofun⟩
  received h := nomatch h
  dynscope h := nomatch h

theorem step (hw : w.Receives) (h : w.Moves op w') (hgives : w.GivesFitting op)
    (hinside : w.InsideFinished w') : w'.Receives := by
  have hadvances := hw.advances h
  have hrelated := related_of_moves hw.related h
  refine ⟨hw.toFitting.step h hgives, hrelated, ?_, ?_⟩
  · intro p c x y f hx hfinished hy _ hparent hkind hf hmark
    obtain ⟨y₀, hy₀, hfinished₀⟩ := hinside ⟨x, hx, hfinished⟩ hy hparent
    obtain ⟨y', hy', hyy, -⟩ := hadvances.lasts hy₀ hfinished₀
    obtain rfl := Option.some.inj (hy.symm.trans hy')
    rw [Builder.closureFlags_congr hyy.flags] at hmark
    by_cases hp : w.registry.Finished p
    · obtain ⟨x₀, hx₀, hfinished⟩ := hp
      obtain ⟨x', hx', hxx, -⟩ := hadvances.lasts hx₀ hfinished
      obtain rfl := Option.some.inj (hx.symm.trans hx')
      rw [hxx.flags]
      exact hw.received hx₀ hfinished hy₀ hfinished₀ (hyy.parent ▸ hparent) (hyy.kind ▸ hkind) hf
        hmark
    · obtain ⟨x', hx', hmem⟩ := hrelated.closures hy hparent
      obtain rfl := Option.some.inj (hx.symm.trans hx')
      exact (hadvances.marks hp hx hfinished hf).mpr (.inr ⟨c, hmem hkind, y₀, hy₀, hmark⟩)
  · intro p x hx hfinished
    by_cases hp : w.registry.Finished p
    · obtain ⟨x₀, hx₀, hfinished⟩ := hp
      obtain ⟨x', hx', hxx, -⟩ := hadvances.lasts hx₀ hfinished
      obtain rfl := Option.some.inj (hx.symm.trans hx')
      rw [hxx.flags]
      exact hw.dynscope hx₀ hfinished
    · exact hadvances.dynscope hp hx hfinished

theorem run {ops : List Op} (hw : w.Receives) (hrun : w.run ops = some final)
    (hgives : w.Throughout (fun w op _ => w.GivesFitting op) ops)
    (hfinishes : w.Throughout (FinishesInside final) ops)
    (hinside : ∀ p, w.registry.Finished p → ∀ c ∈ final.registry.children p, w.registry.Finished c) :
    final.Receives ∧ final.InsideFinished final := by
  induction ops generalizing w with
  | nil =>
    cases hrun
    exact ⟨hw, fun hp hy hparent => hinside _ hp _ (hw.related.mem_children hy hparent)⟩
  | cons op ops ih =>
    obtain ⟨w', hop, hrun⟩ := Option.bind_eq_some_iff.mp hrun
    unfold Throughout at hgives hfinishes
    rw [hop] at hgives hfinishes
    have hmoves := moves_of_step hop
    have hrelated := related_of_moves hw.related hmoves
    have hbefore : ∀ p, w'.registry.Finished p → ∀ c ∈ final.registry.children p,
        w.registry.Finished c := by
      intro p hp c hc
      by_cases hold : w.registry.Finished p
      · exact hinside p hold c hc
      · exact hfinishes.1 p hp hold c hc
    refine ih (hw.step hmoves hgives.1 fun hp hy hparent => ?_) hrun hgives.2 hfinishes.2
      fun p hp c hc => (hw.advances hmoves).finished (hbefore p hp c hc)
    exact hbefore _ hp _ (mem_children_of_run hrelated hy hparent hrun)

/-- A finished scope has what its closures hand on. -/
theorem handed {p c : ScopeId} {y : Scope} {f : ScopeFlag} (hw : w.Receives)
    (hinside : w.InsideFinished w) (hp : w.registry.Finished p) (hy : w.registry.scope? c = some y)
    (hparent : y.parent = some p) (hkind : y.kind.isClosureLike) (hf : f.isTracked)
    (hmark : (Builder.closureFlags y).contains f) : (w.registry.flags p).contains f := by
  obtain ⟨y', hy', hfinished⟩ := hinside hp hy hparent
  obtain rfl := Option.some.inj (hy.symm.trans hy')
  obtain ⟨x, hx, hxfinished⟩ := hp
  rw [flags, hx]
  exact hw.received hx hxfinished hy hfinished hparent hkind hf hmark

/-- Transfers of a finished scope are known from its flags. -/
theorem own_flag {c : ScopeId} {y : Scope} {i : Instr} {f : ScopeFlag} (hw : w.Receives)
    (hy : w.registry.scope? c = some y) (hi : i ∈ w.registry.stored c) (hf : f.isTracked)
    (hown : ¬ f.isInherited) (hflag : i.scopeFlags.contains f) : y.flags.contains f := by
  have hstored : w.registry.stored c = y.instrs.getD [] := by
    rw [stored, hy]
    rfl
  rw [hstored] at hi
  have hfinished : y.isFinished := by
    by_contra hunfinished
    rw [(hw.unfinished hy hunfinished).instrs] at hi
    cases hi
  exact (hw.finished hy hfinished hf hown).mpr (.inr (.inl ⟨i, hi, hflag⟩))

/-- Where a nonlocal return may arrive in a closure, it may arrive in the method around it. -/
theorem of_chain {c : ScopeId} {chain : List Scope} {m : Scope} (hw : w.Receives)
    (hinside : w.InsideFinished w) (hchain : w.registry.lexicalChain c = .ok chain)
    (hm : chain.find? (·.kind = .method) = some m)
    (hclosures : ∀ y ∈ chain.takeWhile (·.kind ≠ .method), y.kind.isClosureLike)
    (hfinished : w.registry.Finished m.id) :
    w.registry.Finished c ∧ ((w.registry.flags c).contains .canReceiveNonlocalReturns →
      (w.registry.flags m.id).contains .canReceiveNonlocalReturns) := by
  induction chain generalizing c with
  | nil => cases hm
  | cons x rest ih =>
    obtain ⟨_, _, hcons, hx, hrest⟩ := cons_of_lexicalChain hchain
    obtain ⟨rfl, rfl⟩ := List.cons.inj hcons
    by_cases hkind : x.kind = .method
    · rw [List.find?_cons_of_pos (by exact decide_eq_true hkind)] at hm
      obtain rfl := Option.some.inj hm
      rw [hw.related.id_eq hx] at hfinished ⊢
      exact ⟨hfinished, id⟩
    rw [List.find?_cons_of_neg (by simpa using hkind)] at hm
    rw [List.takeWhile_cons_of_pos (by simpa using hkind)] at hclosures
    rcases hrest with rfl | ⟨p, hp, hrest⟩
    · cases hm
    obtain ⟨⟨y, hy, hyfinished⟩, hmark⟩ :=
      ih hrest hm fun y hy => hclosures y (List.mem_cons_of_mem _ hy)
    obtain ⟨x', hx', hxfinished⟩ := hinside ⟨y, hy, hyfinished⟩ hx hp
    obtain rfl := Option.some.inj (hx.symm.trans hx')
    refine ⟨⟨x, hx, hxfinished⟩, fun h => hmark ?_⟩
    have hx' : w.registry.flags c = x.flags := by rw [flags, hx]; rfl
    refine hw.handed hinside ⟨y, hy, hyfinished⟩ hx hp (hclosures x List.mem_cons_self) rfl ?_
    rw [hx'] at h
    exact (Builder.contains_closureFlags _ _).mpr (.inr (.inl ⟨rfl, .inr (.inr h)⟩))

end Receives

/-- Breaks arrive in scopes that may receive breaks. So do nonlocal returns, where only closures lie
between the return and its method. -/
theorem receivers_of_run {config : Config} {ops : List Op}
    (hrun : (Workshop.empty config).run ops = some w)
    (hgives : (Workshop.empty config).Throughout (fun w op _ => w.GivesFitting op) ops)
    (hfinishes : (Workshop.empty config).Throughout (FinishesInside w) ops) :
    (∀ c value p, .breakOut value p ∈ w.registry.stored c → w.registry.Finished p →
      (w.registry.flags p).contains .canReceiveBreaks) ∧
    (∀ c value name m, .nonlocalReturn value (some name) ∈ w.registry.stored c →
      w.registry.nearestMethod c = .ok (some m) → w.registry.ClosedToMethod c →
      w.registry.Finished m.id → (w.registry.flags m.id).contains .canReceiveNonlocalReturns ∧
        (w.registry.flags m.id).contains .requiresDynscope) := by
  obtain ⟨hw, hinside⟩ := (Receives.empty config).run hrun hgives hfinishes
    fun p ⟨_, hp, _⟩ => nomatch hp
  have hscope : ∀ {c : ScopeId} {i : Instr}, i ∈ w.registry.stored c →
      ∃ y, w.registry.scope? c = some y ∧ i.Fits y := by
    intro c i hi
    unfold stored at hi
    cases hy : w.registry.scope? c with
    | none =>
      rw [hy] at hi
      cases hi
    | some y =>
      rw [hy] at hi
      exact ⟨y, rfl, hw.stored hy i hi⟩
  constructor
  · intro c value p hi hp
    obtain ⟨y, hy, hkind, hparent⟩ := hscope hi
    have hclosure : y.kind.isClosureLike := by
      revert hkind
      cases y.kind <;> decide
    have hown : y.flags.contains .hasBreakInstrs :=
      hw.own_flag hy hi rfl nofun ((FlagSet.contains_singleton _ _).mpr rfl)
    refine hw.handed hinside hp hy hparent hclosure rfl ?_
    exact (Builder.contains_closureFlags _ _).mpr (.inl ⟨rfl, .inr (.inl hown)⟩)
  · rintro c value name m hi hmethod ⟨chain, hchain, hclosures⟩ hfinished
    obtain ⟨x, hx, hfits⟩ := hscope hi
    have hkind : x.kind ≠ .method := hfits
    have hm : chain.find? (·.kind = .method) = some m := by
      rw [nearestMethod, hchain] at hmethod
      exact Except.ok.inj hmethod
    obtain ⟨_, rest, rfl, hx', hrest⟩ := cons_of_lexicalChain hchain
    obtain rfl := Option.some.inj (hx.symm.trans hx')
    rw [List.find?_cons_of_neg (by simpa using hkind)] at hm
    rw [List.takeWhile_cons_of_pos (by simpa using hkind)] at hclosures
    rcases hrest with rfl | ⟨p, hp, hrest⟩
    · cases hm
    have hown : x.flags.contains .hasNonlocalReturns :=
      hw.own_flag hx hi rfl nofun ((FlagSet.contains_singleton _ _).mpr rfl)
    obtain ⟨hpfinished, hmark⟩ := hw.of_chain hinside hrest hm
      (fun y hy => hclosures y (List.mem_cons_of_mem _ hy)) hfinished
    have hreceives : (w.registry.flags m.id).contains .canReceiveNonlocalReturns := by
      refine hmark (hw.handed hinside hpfinished hx hp (hclosures x List.mem_cons_self) rfl ?_)
      exact (Builder.contains_closureFlags _ _).mpr (.inr (.inl ⟨rfl, .inr (.inl hown)⟩))
    obtain ⟨z, hz, hzfinished⟩ := hfinished
    refine ⟨hreceives, ?_⟩
    rw [flags, hz] at hreceives ⊢
    exact hw.dynscope hz hzfinished hreceives

/-- A block of a method that is left by a break and by a return. -/
def breakAndReturn : List Op :=
  [.newScope .method ⟨"m"⟩ "main.rb" 0 none, .openRoot ⟨0⟩,
    .newScope .closure ⟨"block"⟩ "main.rb" 1 (some ⟨0⟩), .openInside 0 ⟨1⟩ false,
    .act 1 (.break .nil), .act 1 (.return .nil), .finish 1, .finish 0]

theorem receivers_of_run_breakAndReturn : ∃ w m,
    (Workshop.empty {}).run breakAndReturn = some w ∧
      .breakOut .nil ⟨0⟩ ∈ w.registry.stored ⟨1⟩ ∧
      .nonlocalReturn .nil (some ⟨"m"⟩) ∈ w.registry.stored ⟨1⟩ ∧
      w.registry.nearestMethod ⟨1⟩ = .ok (some m) ∧
      (w.registry.flags ⟨0⟩).contains .canReceiveBreaks ∧
      (w.registry.flags m.id).contains .canReceiveNonlocalReturns ∧
      (w.registry.flags m.id).contains .requiresDynscope := by
  have hrun : ((Workshop.empty {}).run breakAndReturn).isSome := by decide +kernel
  obtain ⟨w, hw⟩ := Option.isSome_iff_exists.mp hrun
  have hfacts : ∀ v ∈ (Workshop.empty {}).run breakAndReturn,
      (Workshop.empty {}).Throughout (fun w op _ => w.GivesFitting op) breakAndReturn ∧
      (Workshop.empty {}).Throughout (FinishesInside v) breakAndReturn ∧
      .breakOut .nil ⟨0⟩ ∈ v.registry.stored ⟨1⟩ ∧
      .nonlocalReturn .nil (some ⟨"m"⟩) ∈ v.registry.stored ⟨1⟩ ∧ v.registry.Finished ⟨0⟩ ∧
      (∃ x ∈ v.registry.scope? ⟨0⟩, x.id = ⟨0⟩ ∧ x.kind = .method ∧ x.parent = none) ∧
      ∃ x ∈ v.registry.scope? ⟨1⟩, x.kind = .closure ∧ x.parent = some ⟨0⟩ := by
    decide +kernel
  obtain ⟨hgives, hfinishes, hbreak, hreturn, hfinished, ⟨m, hm, hid, hmkind, hmparent⟩, x, hx, hkind,
    hparent⟩ := hfacts w hw
  have hchain : w.registry.lexicalChain ⟨1⟩ = .ok [x, m] :=
    lexicalChain_of_pair hx hparent (by decide) hm hmparent
  have hmethod : w.registry.nearestMethod ⟨1⟩ = .ok (some m) := by
    rw [nearestMethod, hchain]
    simp [bind, Except.bind, pure, Except.pure, hkind, hmkind]
  have hclosed : w.registry.ClosedToMethod ⟨1⟩ := by
    refine ⟨_, hchain, ?_⟩
    simp [hkind, hmkind, ScopeKind.isClosureLike]
  obtain ⟨hbreaks, hreturns⟩ := receivers_of_run hw hgives hfinishes
  obtain ⟨hreceives, hdynscope⟩ := hreturns _ _ _ m hreturn hmethod hclosed (hid ▸ hfinished)
  exact ⟨w, m, hw, hbreak, hreturn, hmethod, hbreaks _ _ _ hbreak hfinished, hreceives, hdynscope⟩

end Workshop

end ScopeIR
