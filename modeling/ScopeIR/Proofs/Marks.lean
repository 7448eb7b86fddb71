import ScopeIR.Proofs.Moves

/-! What the flags of builders and of finished scopes record, after any sequence of operations. -/

namespace ScopeIR

/-- A flag that is kept exactly: the others follow from it, or are also set by loops. -/
def ScopeFlag.isTracked : ScopeFlag → Bool
  | .hasLoops | .requiresDynscope | .flagsComputed => false
  | _ => true

/-- What kind of closure a scope has may say that the flag belongs to the scope. -/
def ScopeFlag.isInherited : ScopeFlag → Bool
  | .canReceiveBreaks | .canReceiveNonlocalReturns | .usesZSuper => true
  | _ => false

/-- A scope of this kind with these instructions has the flag itself. -/
def Owns (kind : ScopeKind) (instrs : List Instr) (refused : Prop) (f : ScopeFlag) : Prop :=
  kind.initialFlags.contains f ∨ (∃ i ∈ instrs, i.scopeFlags.contains f) ∨
    f = .usesZSuper ∧ refused

theorem owns_append {kind : ScopeKind} {front xs back : List Instr} {refused refused' : Prop}
    {f : ScopeFlag} : Owns kind (front ++ xs ++ back) (refused ∨ refused') f ↔
      Owns kind xs refused f ∨ (∃ i ∈ front ++ back, i.scopeFlags.contains f) ∨
        f = .usesZSuper ∧ refused' := by
  simp only [Owns, List.mem_append, or_and_right, exists_or, and_or_left]
  constructor
  · rintro (h | ((h | h) | h) | h | h)
    · exact .inl (.inl h)
    · exact .inr (.inl (.inl h))
    · exact .inl (.inr (.inl h))
    · exact .inr (.inl (.inr h))
    · exact .inl (.inr (.inr h))
    · exact .inr (.inr h)
  · rintro ((h | h | h) | (h | h) | h)
    · exact .inl h
    · exact .inr (.inl (.inl (.inr h)))
    · exact .inr (.inr (.inl h))
    · exact .inr (.inl (.inl (.inl h)))
    · exact .inr (.inl (.inr h))
    · exact .inr (.inr (.inr h))

/-- Writing keeps flags and list in step. -/
theorem Session.Writes.owns {P : Instr → Prop} {s t : Session} {kind : ScopeKind}
    {refused refused' : Prop} {f : ScopeFlag} (h : s.Writes P refused' t) (hf : f ≠ .hasLoops)
    (hs : s.builder.flags.contains f ↔ Owns kind s.builder.instrs.toList refused f) :
    t.builder.flags.contains f ↔ Owns kind t.builder.instrs.toList (refused ∨ refused') f := by
  obtain ⟨front, back, hlist, hflags, -⟩ := h.list
  rw [hflags f hf, hs, hlist, owns_append]

namespace Registry

variable {g g' : Registry} {id : ScopeId}

def Finished (g : Registry) (id : ScopeId) : Prop := ∃ x, g.scope? id = some x ∧ x.isFinished

/-- The list that was stored when the scope was finished. -/
def stored (g : Registry) (id : ScopeId) : List Instr := ((g.scope? id).bind (·.instrs)).getD []

def flags (g : Registry) (id : ScopeId) : ScopeFlags := (g.scope? id).elim ∅ (·.flags)

def closures (g : Registry) (id : ScopeId) : List ScopeId := (g.scope? id).elim [] (·.closures)

theorem finished_iff {x : Scope} (hx : g.scope? id = some x) :
    g.Finished id ↔ x.isFinished := by
  constructor
  · rintro ⟨y, hy, hfinished⟩
    rwa [Option.some.inj (hx.symm.trans hy)]
  · exact fun hfinished => ⟨x, hx, hfinished⟩

instance : Decidable (g.Finished id) :=
  match hx : g.scope? id with
  | none => .isFalse fun ⟨_, hy, _⟩ => nomatch hx.symm.trans hy
  | some _ => decidable_of_iff _ (finished_iff hx).symm

/-- Scopes have numbers. -/
theorem forall_finished_iff {P : ScopeId → Prop} : (∀ id, g.Finished id → P id) ↔
    ∀ n < g.scopes.size, g.Finished ⟨n.toUInt64⟩ → P ⟨n.toUInt64⟩ := by
  refine ⟨fun h n _ => h _, fun h id hid => ?_⟩
  have ⟨x, hx, _⟩ := hid
  have hn : (⟨id.index.toNat.toUInt64⟩ : ScopeId) = id := by
    rw [Nat.toUInt64, UInt64.ofNat_toNat]
  have hlt := (Array.getElem?_eq_some_iff.mp hx).1
  exact hn ▸ h _ hlt (hn.symm ▸ hid)

instance {P : ScopeId → Prop} [DecidablePred P] : Decidable (∀ id, g.Finished id → P id) :=
  decidable_of_iff' _ forall_finished_iff

theorem Lasts.of_isFinished {y : Scope} (h : g.Lasts g') (hy : g'.scope? id = some y)
    (hfinished : y.isFinished) : ∃ x, g.scope? id = some x ∧ x.isFinished ∧ x.Lasts y := by
  cases hx : g.scope? id with
  | none => exact absurd hfinished (h.new hx hy).1.not_isFinished
  | some x =>
    obtain ⟨y', hy', hxy⟩ := h.old hx
    obtain rfl := Option.some.inj (hy.symm.trans hy')
    exact ⟨x, rfl, hxy.isFinished_eq ▸ hfinished, hxy⟩

end Registry

namespace Workshop

open Registry

variable {w w' : Workshop} {op : Op}

theorem worker?_of_setWorker {place p : Nat} {k : Option Worker} {k' : Worker}
    (h : (w.setWorker place k).worker? p = some k') : k = some k' ∨ w.worker? p = some k' := by
  unfold worker? setWorker at h
  dsimp only at h
  rw [List.getElem?_set] at h
  split at h
  · split at h
    · exact .inl h
    · cases h
  · exact .inr h

theorem worker?_of_addWorker {p : Nat} {k k' : Worker}
    (h : (w.addWorker k).worker? p = some k') : k' = k ∨ w.worker? p = some k' := by
  unfold worker? addWorker at h
  dsimp only at h
  rw [List.getElem?_append] at h
  split at h
  · exact .inr h
  · rw [List.getElem?_singleton] at h
    split at h
    · exact .inl (Option.some.inj h).symm
    · cases h

theorem mem_refusing {id id' : ScopeId} {refused : Bool} :
    id' ∈ (if refused then [id] else []) ++ w.refusing ↔
      id' = id ∧ refused ∨ id' ∈ w.refusing := by
  rw [List.mem_append]
  cases refused <;> simp

/-- What the flags of a worker's builder record. -/
def Records (g : Registry) (k : Worker) : Prop :=
  ∃ x, g.scope? k.builder.scope = some x ∧ ∀ f, f ≠ .hasLoops →
    (k.builder.flags.contains f ↔ Owns x.kind k.builder.instrs.toList k.refused f)

/-- What flags record about what was built. -/
structure Tracks (w : Workshop) : Prop where
  worker {place : Nat} {k : Worker} : w.worker? place = some k → Records w.registry k
  unfinished {id : ScopeId} {x : Scope} : w.registry.scope? id = some x → ¬ x.isFinished → x.Blank
  refusing {id : ScopeId} : id ∈ w.refusing → w.registry.Finished id
  finished {id : ScopeId} {x : Scope} {f : ScopeFlag} : w.registry.scope? id = some x →
    x.isFinished → f.isTracked → ¬ f.isInherited →
      (x.flags.contains f ↔ Owns x.kind (x.instrs.getD []) (id ∈ w.refusing) f)

namespace Tracks

theorem empty (config : Config) : (Workshop.empty config).Tracks where
  worker h := nomatch h
  unfinished h := nomatch h
  refusing h := nomatch h
  finished h := nomatch h

theorem lasts {g : Registry} (hw : w.Tracks) (hg : w.registry.Lasts g) :
    ({ w with registry := g } : Workshop).Tracks where
  worker hk := by
    obtain ⟨x, hx, hflags⟩ := hw.worker hk
    obtain ⟨y, hy, hxy⟩ := hg.old hx
    exact ⟨y, hy, fun f hf => hxy.kind ▸ hflags f hf⟩
  unfinished {id y} hy hunfinished := by
    cases hx : w.registry.scope? id with
    | none => exact (hg.new hx hy).1
    | some x =>
      obtain ⟨y', hy', hxy⟩ := hg.old hx
      obtain rfl := Option.some.inj (hy.symm.trans hy')
      exact hxy.blank (hw.unfinished hx (hxy.isFinished_eq ▸ hunfinished))
  refusing hid := by
    obtain ⟨x, hx, hfinished⟩ := hw.refusing hid
    obtain ⟨y, hy, hxy⟩ := hg.old hx
    exact ⟨y, hy, hxy.isFinished_eq ▸ hfinished⟩
  finished hy hfinished htracked hf := by
    obtain ⟨x, hx, hfinished, hxy⟩ := hg.of_isFinished hy hfinished
    rw [hxy.flags, hxy.kind, hxy.instrs]
    exact hw.finished hx hfinished htracked hf

theorem setWorker {place : Nat} {k : Option Worker} (hw : w.Tracks)
    (hk : ∀ k', k = some k' → Records w.registry k') : (w.setWorker place k).Tracks where
  worker h := by
    rcases worker?_of_setWorker h with h | h
    · exact hk _ h
    · exact hw.worker h
  unfinished := hw.unfinished
  refusing := hw.refusing
  finished := hw.finished

theorem addWorker {k : Worker} (hw : w.Tracks) (hk : Records w.registry k) :
    (w.addWorker k).Tracks where
  worker h := by
    rcases worker?_of_addWorker h with rfl | h
    · exact hk
    · exact hw.worker h
  unfinished := hw.unfinished
  refusing := hw.refusing
  finished := hw.finished

theorem store {id : ScopeId} {x y : Scope} {refused : Bool} (hw : w.Tracks)
    (hx : w.registry.scope? id = some x) (hunfinished : ¬ x.isFinished) (hkind : y.kind = x.kind)
    (hfinished : y.isFinished) (hflags : ∀ f : ScopeFlag, f.isTracked → ¬ f.isInherited →
      (y.flags.contains f ↔ Owns y.kind (y.instrs.getD []) refused f)) :
    ({ w with
      registry := w.registry.setScope id y
      refusing := (if refused then [id] else []) ++ w.refusing } : Workshop).Tracks := by
  -- no refusal was noted for it before, since those are noted for finished scopes
  have hid : id ∉ w.refusing := fun hid => hunfinished ((finished_iff hx).mp (hw.refusing hid))
  have hself : (w.registry.setScope id y).scope? id = some y := scope?_setScope_self hx
  have hother : ∀ {id'}, id' ≠ id →
      (w.registry.setScope id y).scope? id' = w.registry.scope? id' := scope?_setScope_ne
  constructor
  · intro place k hk
    obtain ⟨x', hx', hflags⟩ := hw.worker hk
    by_cases heq : k.builder.scope = id
    · rw [heq] at hx'
      obtain rfl := Option.some.inj (hx.symm.trans hx')
      refine ⟨y, ?_, hkind ▸ hflags⟩
      rw [heq]
      exact hself
    · exact ⟨x', (hother heq).trans hx', hflags⟩
  · intro id' z hz hunfinished
    by_cases heq : id' = id
    · subst heq
      obtain rfl := Option.some.inj (hself.symm.trans hz)
      exact absurd hfinished hunfinished
    · exact hw.unfinished ((hother heq).symm.trans hz) hunfinished
  · intro id' hid'
    by_cases heq : id' = id
    · subst heq
      exact ⟨y, hself, hfinished⟩
    · have hold := (mem_refusing.mp hid').resolve_left fun h => heq h.1
      obtain ⟨x', hx', hfinished⟩ := hw.refusing hold
      exact ⟨x', (hother heq).trans hx', hfinished⟩
  · intro id' z f hz hfinished htracked hf
    by_cases heq : id' = id
    · subst heq
      obtain rfl := Option.some.inj (hself.symm.trans hz)
      simp only [mem_refusing, true_and, or_iff_left hid]
      exact hflags f htracked hf
    · simp only [mem_refusing, heq, false_and, false_or]
      exact hw.finished ((hother heq).symm.trans hz) hfinished htracked hf

section Completes

variable {place : Nat} {k : Worker} {u : Session} {id : ScopeId} {x : Scope} {flags : ScopeFlags}

/-- The scope that is finished was there before, and blank. -/
theorem old_of_completes (hw : w.Tracks) (hk : w.worker? place = some k)
    (hu : (w.session k).Completes u id x flags) :
    ∃ y, w.registry.scope? id = some y ∧ y.Blank ∧ y.Lasts x := by
  obtain ⟨y, hy, -⟩ := hw.worker hk
  obtain ⟨x', hx', hyx⟩ := hu.serves.lasts.old hy
  have hid : k.builder.scope = id := hu.id_eq.symm
  rw [hid] at hy hx'
  obtain rfl := Option.some.inj (hu.scope.symm.trans hx')
  exact ⟨y, hy, hw.unfinished hy (hyx.isFinished_eq ▸ hu.unfinished), hyx⟩

/-- The final flags of a scope are its own and those that its closures say it has. -/
theorem flags_of_completes {f : ScopeFlag} (hw : w.Tracks) (hk : w.worker? place = some k)
    (hu : (w.session k).Completes u id x flags) (hf : f.isTracked) :
    flags.contains f ↔ Owns x.kind u.builder.instrs.toList k.refused f ∨
      ∃ c ∈ x.closures, ∃ y, u.registry.scope? c = some y ∧
        (Builder.closureFlags y).contains f := by
  obtain ⟨y, hy, hrecords⟩ := hw.worker hk
  obtain ⟨y', hy', hblank, hyx⟩ := hw.old_of_completes hk hu
  have hid : k.builder.scope = id := hu.id_eq.symm
  rw [hid] at hy
  obtain rfl := Option.some.inj (hy.symm.trans hy')
  have hloops : f ≠ .hasLoops := by rintro rfl; cases hf
  have howns := (hu.writes (P := fun _ => True) fun _ => trivial).owns hloops (hrecords f hloops)
  rw [or_false, ← hyx.kind] at howns
  rw [hu.flags (by rintro rfl; cases hf) (by rintro rfl; cases hf), howns,
    (hyx.blank hblank).flags, ← or_assoc]
  refine or_congr_left ⟨?_, ?_⟩
  · rintro ((h | h) | h)
    · exact h
    · exact .inl h
    · exact .inr (.inl h)
  · exact fun h => .inl (.inl h)

end Completes

theorem step (hw : w.Tracks) (h : w.Moves op w') : w'.Tracks := by
  cases h with
  | manages hg => exact hw.lasts hg
  | opens hg hx hb =>
    refine (hw.lasts hg).addWorker ⟨_, hx, fun f _ => ?_⟩
    rw [hb.flags, hb.instrs]
    simp [Owns]
  | @acts place k act v t hk ht =>
    obtain ⟨x, hx, hrecords⟩ := hw.worker hk
    have hwrites := Act.writes ht
    obtain ⟨y, hy, hxy⟩ := hwrites.registry.lasts.old hx
    refine (hw.lasts hwrites.registry.lasts).setWorker ?_
    rintro _ ⟨⟩
    refine ⟨y, hwrites.scope ▸ hy, fun f hf => ?_⟩
    rw [hxy.kind, Bool.or_eq_true]
    exact hwrites.owns hf (hrecords f hf)
  | @finishes place k u id x flags hk hu =>
    have hdone : (Workshop.setWorker { w with registry := u.registry } place none).Tracks :=
      (hw.lasts hu.serves.lasts).setWorker fun _ h => by cases h
    refine hdone.store hu.scope hu.unfinished rfl hu.flagsComputed fun f htracked hf => ?_
    refine (hw.flags_of_completes hk hu htracked).trans (or_iff_left ?_)
    rintro ⟨c, -, y, -, h⟩
    rcases (Builder.contains_closureFlags y f).mp h with ⟨rfl, -⟩ | ⟨rfl, -⟩ | ⟨rfl, -⟩ <;>
      exact hf rfl
  | leaves hg => exact (hw.lasts hg.lasts).setWorker fun _ h => nomatch h

end Tracks

/-- What a step does to finished scopes, and how it finishes one. -/
structure Advances (w w' : Workshop) : Prop where
  lasts {id : ScopeId} {x : Scope} : w.registry.scope? id = some x → x.isFinished →
    ∃ y, w'.registry.scope? id = some y ∧ x.Lasts y ∧ (id ∈ w'.refusing ↔ id ∈ w.refusing)
  marks {id : ScopeId} {y : Scope} {f : ScopeFlag} : ¬ w.registry.Finished id →
    w'.registry.scope? id = some y → y.isFinished → f.isTracked →
      (y.flags.contains f ↔ Owns y.kind (y.instrs.getD []) (id ∈ w'.refusing) f ∨
        ∃ c ∈ y.closures, ∃ z, w.registry.scope? c = some z ∧
          (Builder.closureFlags z).contains f)
  dynscope {id : ScopeId} {y : Scope} : ¬ w.registry.Finished id →
    w'.registry.scope? id = some y → y.isFinished → y.flags.contains .canReceiveNonlocalReturns →
      y.flags.contains .requiresDynscope

theorem Advances.of_lasts (h : w.registry.Lasts w'.registry) (hrefusing : w'.refusing = w.refusing) :
    w.Advances w' where
  lasts hx _ := by
    obtain ⟨y, hy, hxy⟩ := h.old hx
    exact ⟨y, hy, hxy, by rw [hrefusing]⟩
  marks hunfinished hy hfinished := by
    obtain ⟨x, hx, hfinished, -⟩ := h.of_isFinished hy hfinished
    exact absurd ⟨x, hx, hfinished⟩ hunfinished
  dynscope hunfinished hy hfinished := by
    obtain ⟨x, hx, hfinished, -⟩ := h.of_isFinished hy hfinished
    exact absurd ⟨x, hx, hfinished⟩ hunfinished

theorem Advances.finished (h : w.Advances w') {id : ScopeId} (hid : w.registry.Finished id) :
    w'.registry.Finished id := by
  obtain ⟨x, hx, hfinished⟩ := hid
  obtain ⟨y, hy, hxy, -⟩ := h.lasts hx hfinished
  exact ⟨y, hy, hxy.isFinished_eq ▸ hfinished⟩

theorem Tracks.advances (hw : w.Tracks) (h : w.Moves op w') : w.Advances w' := by
  cases h with
  | manages hg => exact .of_lasts hg rfl
  | opens hg => exact .of_lasts hg rfl
  | acts hk ht => exact .of_lasts (Act.writes ht).registry.lasts rfl
  | leaves hg => exact .of_lasts hg.lasts rfl
  | @finishes place k u id x flags hk hu =>
    have hserves := hu.serves
    obtain ⟨x₀, hx₀, hblank, -⟩ := hw.old_of_completes hk hu
    have hself : (u.registry.setScope id { x with
        instrs := some u.builder.instrs.toList, flags }).scope? id = _ := scope?_setScope_self hu.scope
    have hother : ∀ {id'}, id' ≠ id → (u.registry.setScope id { x with
        instrs := some u.builder.instrs.toList, flags }).scope? id' = u.registry.scope? id' :=
      scope?_setScope_ne
    have hnew : ∀ {id' y}, ¬ w.registry.Finished id' → (u.registry.setScope id { x with
        instrs := some u.builder.instrs.toList, flags }).scope? id' = some y → y.isFinished →
        id' = id := by
      intro id' y hunfinished hy hfinished
      by_contra hne
      obtain ⟨z, hz, hzy⟩ := hserves.old_of_scope ((hother hne).symm.trans hy)
      exact hunfinished ⟨z, hz, hzy.isFinished_eq ▸ hfinished⟩
    constructor
    · intro id' z hz hfinished
      have hne : id' ≠ id := by
        rintro rfl
        obtain rfl := Option.some.inj (hx₀.symm.trans hz)
        exact hblank.not_isFinished hfinished
      obtain ⟨y, hy, hzy⟩ := hserves.lasts.old hz
      refine ⟨y, (hother hne).trans hy, hzy, ?_⟩
      rw [mem_refusing, or_iff_right fun h => hne h.1]
    · intro id' y f hunfinished hy hfinished hf
      obtain rfl := hnew hunfinished hy hfinished
      obtain rfl := Option.some.inj (hself.symm.trans hy)
      have hrefusing : id' ∉ w.refusing := fun h => hunfinished (hw.refusing h)
      simp only [mem_refusing, true_and, or_iff_left hrefusing]
      refine (hw.flags_of_completes hk hu hf).trans (or_congr_right ?_)
      constructor
      · rintro ⟨c, hc, z, hz, h⟩
        obtain ⟨z₀, hz₀, hzz⟩ := hserves.old_of_scope hz
        exact ⟨c, hc, z₀, hz₀, Builder.closureFlags_congr hzz.flags ▸ h⟩
      · rintro ⟨c, hc, z₀, hz₀, h⟩
        obtain ⟨z, hz, hzz⟩ := hserves.lasts.old hz₀
        exact ⟨c, hc, z, hz, Builder.closureFlags_congr hzz.flags ▸ h⟩
    · intro id' y hunfinished hy hfinished
      obtain rfl := hnew hunfinished hy hfinished
      obtain rfl := Option.some.inj (hself.symm.trans hy)
      exact hu.dynscope

/-- Every step of the run is as `R` says. -/
def Throughout (R : Workshop → Op → Workshop → Prop) : Workshop → List Op → Prop
  | _, [] => True
  | w, op :: ops =>
    match w.step op with
    | none => True
    | some w' => R w op w' ∧ Throughout R w' ops

instance decidableThroughout {R : Workshop → Op → Workshop → Prop}
    [∀ w op w', Decidable (R w op w')] : ∀ w ops, Decidable (Throughout R w ops)
  | _, [] => .isTrue trivial
  | w, op :: ops => by
    unfold Throughout
    cases w.step op with
    | none => exact .isTrue trivial
    | some w' =>
      have := decidableThroughout (R := R) w' ops
      exact instDecidableAnd

/-- What holds at first and lasts through every step of this kind holds at the end. -/
theorem run_induction {R : Workshop → Op → Workshop → Prop} {I : Workshop → Prop}
    (hstep : ∀ {w op w'}, I w → w.Moves op w' → R w op w' → I w') {ops : List Op} (hw : I w)
    (hrun : w.run ops = some w') (hsteps : w.Throughout R ops) : I w' := by
  induction ops generalizing w with
  | nil =>
    cases hrun
    exact hw
  | cons op ops ih =>
    obtain ⟨w₁, hop, hrun⟩ := Option.bind_eq_some_iff.mp hrun
    unfold Throughout at hsteps
    rw [hop] at hsteps
    exact ih (hstep hw (moves_of_step hop) hsteps.1) hrun hsteps.2

theorem throughout_true (w : Workshop) (ops : List Op) : w.Throughout (fun _ _ _ => True) ops := by
  induction ops generalizing w with
  | nil => trivial
  | cons op ops ih =>
    unfold Throughout
    split
    · trivial
    · exact ⟨trivial, ih _⟩

theorem tracks_of_run {config : Config} {ops : List Op}
    (hrun : (Workshop.empty config).run ops = some w) : w.Tracks :=
  run_induction (fun hw h _ => hw.step h) (Tracks.empty config) hrun (throughout_true _ ops)

end Workshop

end ScopeIR
