import ScopeIR.Proofs.Doings

/-! Finished scopes. Nothing is stored for a scope before it is finished, and what is stored then
stays, whatever is done later. -/

namespace ScopeIR

namespace Registry

variable {kept : Prop} {g g' : Registry} {id : ScopeId} {x : Scope}

/-- The list that is stored for the scope. -/
def list? (g : Registry) (id : ScopeId) : Option (List Instr) := (g.scope? id).bind (·.instrs)

theorem insertFlags_of_isFinished (hx : g.scope? id = some x) (h : x.isFinished)
    (flags : ScopeFlags) : RegistryM.insertFlags id flags g = .error (.sealedFlags id) := by
  have hscope : RegistryM.scope id g = .ok (x, g) := runs_scope.mpr ⟨hx, rfl⟩
  simp only [RegistryM.insertFlags, bind, StateT.bind, Except.bind, hscope, h, if_true]
  rfl

/-- Nothing else than a finish stores a list. -/
theorem Change.list? {list : List Instr} (h : g.Change kept g') (hlist : g'.list? id = some list) :
    g.list? id = some list := by
  unfold Registry.list? at *
  obtain ⟨y, hy, hlist⟩ := Option.bind_eq_some_iff.mp hlist
  rcases h.instrs hy with hnone | ⟨x, hx, hxy⟩
  · cases hnone.symm.trans hlist
  · rw [hx]
    exact hxy.symm.trans hlist

theorem Serves.list? {list : List Instr} (h : g.Serves g') (hlist : g'.list? id = some list) :
    g.list? id = some list := by
  unfold Registry.list? at *
  obtain ⟨y, hy, hlist⟩ := Option.bind_eq_some_iff.mp hlist
  obtain ⟨x, hx, hxy⟩ := h.old_of_scope hy
  rw [hx]
  exact hxy.instrs.symm.trans hlist

theorem list?_setScope_ne {id' : ScopeId} (h : id' ≠ id) :
    (g.setScope id x).list? id' = g.list? id' := by
  rw [list?, scope?_setScope_ne h, list?]

/-- A scope that is finished keeps its list and its flags. -/
theorem Advances.sealed (h : g.Advances kept g') (hx : g.scope? id = some x)
    (hfinished : x.isFinished) : g'.list? id = x.instrs ∧ g'.flags id = x.flags ∧
      ∃ y, g'.scope? id = some y ∧ y.isFinished := by
  obtain ⟨y, hy, hxy⟩ := h.later hx
  have hsame := hxy.isSealed hfinished
  refine ⟨?_, ?_, y, hy, hxy.isFinished hfinished⟩
  · rw [list?, hy]
    exact hsame.2
  · rw [flags, hy]
    exact hsame.1

end Registry

/-- Finishing a scope once more changes nothing. -/
theorem Session.finish_of_isFinished {s : Session} {x : Scope}
    (hx : s.registry.scope? s.builder.scope = some x) (h : x.isFinished) :
    finish s = (.error (.error (.alreadyFinished s.builder.scope)), s) := by
  have hcurrent : current s = (.ok s.builder, s) := rfl
  have hscope : ownScope s = (.ok x, s) := runs_ownScope.mpr ⟨hx, rfl⟩
  unfold finish
  rw [bind_apply, hcurrent]
  dsimp only
  rw [bind_apply, hscope]
  dsimp only
  rw [if_pos h]
  rfl

namespace Workshop

open Session

variable {p : Terms} {w w' w₀ : Workshop} {d : Doing} {ds before after : List Doing} {id : ScopeId}

/-- The doing is a finish of the scope, and it succeeds. -/
def Finishes (w : Workshop) (d : Doing) (id : ScopeId) : Prop :=
  ∃ place k t, d = .op (.finish place) ∧ w.worker? place = some k ∧
    (w.session k).Runs finish id t

/-- The scope is finished in the course of the run. -/
def FinishedIn (w₀ : Workshop) (ds : List Doing) (id : ScopeId) : Prop :=
  ∃ before d after w, ds = before ++ d :: after ∧ w₀.performAll before = some w ∧ w.Finishes d id

theorem performAll_append (h : w₀.performAll before = some w) :
    w₀.performAll (before ++ after) = w.performAll after := by
  unfold performAll at *
  rw [List.foldlM_append, h]
  rfl

theorem performAll_concat (h : w₀.performAll before = some w) (hd : w.perform d = some w') :
    w₀.performAll (before ++ [d]) = some w' := by
  rw [performAll_append h]
  show (w.perform d).bind _ = some w'
  rw [hd]
  rfl

theorem FinishedIn.append (h : w₀.FinishedIn ds id) (after : List Doing) :
    w₀.FinishedIn (ds ++ after) id := by
  obtain ⟨before, d, rest, w, rfl, hbefore, hd⟩ := h
  exact ⟨before, d, rest ++ after, w, by simp, hbefore, hd⟩

/-- The registry only moves on. -/
theorem advances_of_run (hw₀ : w₀.Staffed p) (hrun : w₀.performAll ds = some w)
    (hkept : w₀.Honours p ds) : w.Staffed p ∧ w₀.registry.Advances p.names w.registry := by
  apply run_of_effects (I := fun _ w => w₀.registry.Advances p.names w.registry) _ hw₀ .refl
    hrun hkept
  intro ds d w w' _ h _ _ heffect
  exact h.trans heffect.advances

/-- A list that was not there before was stored by a finish of its scope. -/
theorem Effect.list? {list : List Instr} (h : w.Effect p d w')
    (hlist : w'.registry.list? id = some list) :
    w.registry.list? id = some list ∨ w.Finishes d id := by
  cases h with
  | manages _ _ hg => exact .inl (hg.list? hlist)
  | opens _ hg => exact .inl (hg.list? hlist)
  | acts _ hu => exact .inl ((Strokes.serves hu).list? hlist)
  | fails _ hu => exact .inl ((Strokes.serves hu).list? hlist)
  | drops => exact .inl hlist
  | @finishes place k _ _ _ _ hk hu _ _ _ hruns =>
    by_cases hid : id = k.builder.scope
    · subst hid
      exact .inr ⟨place, k, _, rfl, hk, hruns⟩
    · exact .inl ((Strokes.serves hu).list? ((Registry.list?_setScope_ne hid).symm.trans hlist))

/-- A finish stores a list, and the scope is finished. -/
theorem Effect.stores (h : w.Effect p d w') (hd : w.Finishes d id) :
    ∃ x, w'.registry.scope? id = some x ∧ x.isFinished ∧ x.instrs.isSome := by
  obtain ⟨place, k, t, rfl, hk, hruns⟩ := hd
  cases h with
  | manages _ hfinish => exact absurd rfl (hfinish place)
  | opens hopened => cases hopened
  | finishes hk' hu hx _ hflags hruns' =>
    obtain rfl := Option.some.inj (hk.symm.trans hk')
    obtain ⟨hid, -⟩ := Prod.mk.inj (hruns.symm.trans hruns')
    obtain rfl := Except.ok.inj hid
    exact ⟨_, Registry.scope?_setScope_self hx, hflags, rfl⟩
  | fails hk' _ hfails =>
    obtain rfl := Option.some.inj (hk.symm.trans hk')
    cases hruns.symm.trans hfails

/-- What the registry has of a scope after a finish, and at any later time. -/
theorem sealed_of_finish {config : Config} {u : Workshop}
    (hrun : (Workshop.empty config).performAll (before ++ d :: after) = some w)
    (hbefore : (Workshop.empty config).performAll before = some u) (hfinish : u.Finishes d id) :
    ∃ u' x y, u.perform d = some u' ∧ u'.registry.scope? id = some x ∧ x.instrs.isSome ∧
      w.registry.scope? id = some y ∧ y.isFinished ∧ w.registry.list? id = x.instrs ∧
      w.registry.flags id = x.flags := by
  have hempty : (Workshop.empty config).Staffed ⟨False, False⟩ := .empty config
  have hu := (advances_of_run hempty hbefore (honours_nothing _ _)).1
  have hkeeps : d.Keeps ⟨False, False⟩ u := (honours_nothing u [d]).1
  rw [performAll_append hbefore] at hrun
  obtain ⟨u', hd, hafter⟩ := Option.bind_eq_some_iff.mp hrun
  have heffect := effect_of_perform hu hkeeps hd
  obtain ⟨x, hx, hfinished, hsome⟩ := heffect.stores hfinish
  have hadvances := (advances_of_run (hu.effect heffect) hafter (honours_nothing _ _)).2
  obtain ⟨hlist, hflags, y, hy, hfinished'⟩ := hadvances.sealed hx hfinished
  exact ⟨u', x, y, hd, hx, hsome, hy, hfinished', hlist, hflags⟩

theorem list?_of_finishedIn {config : Config}
    (hrun : (Workshop.empty config).performAll ds = some w)
    (h : (Workshop.empty config).FinishedIn ds id) : ∃ list, w.registry.list? id = some list := by
  obtain ⟨before, d, after, u, rfl, hbefore, hfinish⟩ := h
  obtain ⟨-, x, -, -, -, hsome, -, -, hlist, -⟩ := sealed_of_finish hrun hbefore hfinish
  rw [hlist]
  exact Option.isSome_iff_exists.mp hsome

/-- In any run, nothing is stored for a scope before it is finished. From then on the stored list
and the flags stay, finishing the scope again fails and changes nothing, and nobody can add flags.
-/
theorem stored_for_good {config : Config} (hrun : (Workshop.empty config).performAll ds = some w)
    (id : ScopeId) :
    (¬ (Workshop.empty config).FinishedIn ds id → w.registry.list? id = none) ∧
    ∀ before d after u u', ds = before ++ d :: after →
      (Workshop.empty config).performAll before = some u → u.perform d = some u' →
      u.Finishes d id →
        (∃ list, u'.registry.list? id = some list ∧ w.registry.list? id = some list) ∧
        w.registry.flags id = u'.registry.flags id ∧
        (∀ s : Session, s.registry = w.registry → s.builder.scope = id →
          finish s = (.error (.error (.alreadyFinished id)), s)) ∧
        ∀ flags, RegistryM.insertFlags id flags w.registry = .error (.sealedFlags id) := by
  have hempty : (Workshop.empty config).Staffed ⟨False, False⟩ := .empty config
  constructor
  · have hlists : (Workshop.empty config).performAll ds = some w ∧
        ∀ id list, w.registry.list? id = some list → (Workshop.empty config).FinishedIn ds id := by
      refine (run_of_effects (I := fun ds w => (Workshop.empty config).performAll ds = some w ∧
        ∀ id list, w.registry.list? id = some list → (Workshop.empty config).FinishedIn ds id)
        ?_ hempty ?_ hrun (honours_nothing _ _)).2
      · rintro ds d w w' - ⟨hw, hlists⟩ - hd heffect
        refine ⟨performAll_concat hw hd, fun id list hlist => ?_⟩
        rcases heffect.list? hlist with hlist | hfinish
        · exact (hlists id list hlist).append [d]
        · exact ⟨ds, d, [], w, rfl, hw, hfinish⟩
      · exact ⟨rfl, fun id list hlist => nomatch hlist⟩
    intro hnever
    cases hlist : w.registry.list? id with
    | none => rfl
    | some list => exact absurd (hlists.2 id list hlist) hnever
  · rintro before d after u u' rfl hbefore hd hfinish
    obtain ⟨v, x, y, hv, hx, hsome, hy, hfinished, hlist, hflags⟩ :=
      sealed_of_finish hrun hbefore hfinish
    obtain rfl := Option.some.inj (hd.symm.trans hv)
    obtain ⟨list, hlist'⟩ := Option.isSome_iff_exists.mp hsome
    refine ⟨⟨list, ?_, hlist.trans hlist'⟩, ?_, ?_, ?_⟩
    · rw [Registry.list?, hx]
      exact hlist'
    · rw [hflags, Registry.flags, hx]
      rfl
    · rintro s hs rfl
      exact finish_of_isFinished (hs ▸ hy) hfinished
    · exact Registry.insertFlags_of_isFinished hy hfinished

/-- Two builders are opened for a method, and one of them builds something. -/
def twoBuilders : List Doing :=
  [.op (.newScope .method ⟨"m"⟩ "main.rb" 0 none),
    .op (.newScope .closure ⟨"_CLOSURE_"⟩ "main.rb" 1 (some ⟨0⟩)),
    .op (.openRoot ⟨0⟩), .op (.openRoot ⟨0⟩), .op (.act 0 (.emit .nop))]

/-- The other one goes on: it copies an ensure body that passes a block, and tries to finish. -/
def secondFinish : List Doing :=
  [.op (.act 1 .newEnsure),
    .op (.act 1 (.copyEnsure ⟨⟨"LBL", 0⟩, ⟨"LBL", 1⟩, ⟨"LBL", 2⟩, ⟨"LBL", 3⟩, .unrescued, none,
      [.call ⟨.normal, none, ⟨"each"⟩, .var .self, [], .closure ⟨1⟩, ∅, false⟩]⟩)),
    .op (.finish 1), .op (.openRoot ⟨0⟩)]

theorem stored_for_good_twoBuilders :
    ∃ w ∈ (Workshop.empty {}).performAll (twoBuilders ++ .op (.finish 0) :: secondFinish),
      w.registry.list? ⟨0⟩ = some [.nop] ∧ (w.worker? 2).isSome ∧
      (∀ s : Session, s.registry = w.registry → s.builder.scope = ⟨0⟩ →
        finish s = (.error (.error (.alreadyFinished ⟨0⟩)), s)) ∧
      ∀ flags, RegistryM.insertFlags ⟨0⟩ flags w.registry = .error (.sealedFlags ⟨0⟩) := by
  have hrun : ∃ w ∈ (Workshop.empty {}).performAll
      (twoBuilders ++ .op (.finish 0) :: secondFinish), (w.worker? 2).isSome := by
    decide +kernel
  have hbefore : ∀ u ∈ (Workshop.empty {}).performAll twoBuilders, ∃ k ∈ u.worker? 0,
      (finish (u.session k)).1.toOption = some ⟨0⟩ ∧
        ∃ u' ∈ u.perform (.op (.finish 0)), u'.registry.list? ⟨0⟩ = some [.nop] := by
    decide +kernel
  have hsome : ((Workshop.empty {}).performAll twoBuilders).isSome := by decide +kernel
  obtain ⟨w, hw, hopen⟩ := hrun
  obtain ⟨u, hu⟩ := Option.isSome_iff_exists.mp hsome
  obtain ⟨k, hk, hok, u', hu', hlist⟩ := hbefore u hu
  have hfinish : u.Finishes (.op (.finish 0)) ⟨0⟩ := by
    refine ⟨0, k, _, rfl, hk, runs_of_ok ?_⟩
    cases hf : (finish (u.session k)).1 <;> rw [hf] at hok <;> cases hok
    rfl
  obtain ⟨⟨list, hlist', hkept⟩, -, hfails, hsealed⟩ :=
    (stored_for_good hw ⟨0⟩).2 twoBuilders _ secondFinish u u' rfl hu hu' hfinish
  rw [hlist] at hlist'
  exact ⟨w, hw, hkept.trans hlist'.symm, hopen, hfails, hsealed⟩

end Workshop

end ScopeIR
