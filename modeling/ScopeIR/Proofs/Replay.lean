import Mathlib.Data.List.Induction
import ScopeIR.Proofs.Sealing

/-! What a listener hears. Whoever inserts each instruction where the listener is told has the list
of the scope at any time, as long as one builder works on it. -/

namespace ScopeIR

/-- The list with the instruction at the index, if there is a place for it. -/
def Notice.insertInto (n : Notice) (list : List Instr) : Option (List Instr) :=
  if n.index ≤ list.length then some (list.insertIdx n.index n.instr) else none

/-- The list of someone who inserts each instruction at its index, one after another. -/
def replay (ns : List Notice) : Option (List Instr) :=
  ns.foldlM (fun list n => n.insertInto list) []

/-- Each instruction goes to the front, or behind all that came before. -/
def EndsOnly (ns : List Notice) : Prop :=
  ∀ before n after, ns = before ++ n :: after → n.index = 0 ∨ n.index = before.length

section Replay

variable {ns ms : List Notice} {n : Notice} {list list' : List Instr}

theorem replay_concat : replay (ns ++ [n]) = (replay ns).bind n.insertInto := by
  unfold replay
  rw [List.foldlM_append]
  refine Option.bind_congr fun list _ => ?_
  show (n.insertInto list).bind some = n.insertInto list
  cases n.insertInto list <;> rfl

theorem eq_of_insertInto (h : n.insertInto list = some list') :
    n.index ≤ list.length ∧ list' = list.insertIdx n.index n.instr := by
  unfold Notice.insertInto at h
  split at h
  · next hle => exact ⟨hle, (Option.some.inj h).symm⟩
  · cases h

theorem eq_of_replay_concat (h : replay (ns ++ [n]) = some list') : ∃ list,
    replay ns = some list ∧ n.index ≤ list.length ∧ list' = list.insertIdx n.index n.instr := by
  rw [replay_concat] at h
  obtain ⟨list, hlist, h⟩ := Option.bind_eq_some_iff.mp h
  exact ⟨list, hlist, eq_of_insertInto h⟩

theorem length_of_replay (h : replay ns = some list) : list.length = ns.length := by
  induction ns using List.reverseRecOn generalizing list with
  | nil =>
    cases h
    rfl
  | append_singleton ns n ih =>
    obtain ⟨list₀, h₀, hle, rfl⟩ := eq_of_replay_concat h
    rw [List.length_insertIdx_of_le_length hle, ih h₀, List.length_append, List.length_singleton]

theorem EndsOnly.concat (h : EndsOnly ns) (hn : n.index = 0 ∨ n.index = ns.length) :
    EndsOnly (ns ++ [n]) := by
  intro before m after heq
  rcases List.eq_nil_or_concat after with rfl | ⟨after, m', rfl⟩
  · obtain ⟨rfl, hm⟩ := List.append_inj' heq rfl
    obtain rfl := List.cons.inj hm |>.1
    exact hn
  · rw [List.concat_eq_append, ← List.cons_append, ← List.append_assoc] at heq
    obtain ⟨rfl, -⟩ := List.append_inj' heq rfl
    exact h before m after rfl

theorem EndsOnly.of_append (h : EndsOnly (ns ++ ms)) : EndsOnly ns := by
  rintro before n after rfl
  exact h before n (after ++ ms) (by simp)

/-- What was there once stays, side by side. -/
theorem isInfix_of_replay (hends : EndsOnly (ns ++ ms)) (h : replay ns = some list)
    (h' : replay (ns ++ ms) = some list') : list <:+: list' := by
  induction ms using List.reverseRecOn generalizing list' with
  | nil =>
    rw [List.append_nil, h] at h'
    exact Option.some.inj h' ▸ List.infix_rfl
  | append_singleton ms n ih =>
    rw [← List.append_assoc] at h' hends
    obtain ⟨list₀, h₀, hle, rfl⟩ := eq_of_replay_concat h'
    have hinfix := ih hends.of_append h₀
    rcases hends _ n [] rfl with hn | hn
    · rw [hn, List.insertIdx_zero]
      exact hinfix.trans (List.suffix_cons _ _).isInfix
    · rw [hn, ← length_of_replay h₀, List.insertIdx_length_self]
      exact hinfix.trans (List.prefix_append _ _).isInfix

end Replay

namespace Registry

variable {kept : Prop} {g g' : Registry} {id : ScopeId} {list : List Instr}

/-- The listener has been told of the list of the scope. -/
structure Relays (g : Registry) (id : ScopeId) (list : List Instr) : Prop where
  replay : replay (g.heardOf id) = some list
  ends : EndsOnly (g.heardOf id)

theorem heardOf_congr (h : g'.heard = g.heard) : g'.heardOf id = g.heardOf id := by
  rw [heardOf, h, heardOf]

/-- One more instruction at one of the ends. -/
theorem Relays.told {i : Instr} {index : Nat} (h : g.Relays id list)
    (hheard : g'.heard = g.heard ++ [⟨id, i, index⟩]) (hindex : index = 0 ∨ index = list.length) :
    g'.Relays id (list.insertIdx index i) := by
  have hof : g'.heardOf id = g.heardOf id ++ [⟨id, i, index⟩] := by
    rw [heardOf, hheard, List.filter_append, heardOf]
    simp
  have hle : index ≤ list.length := by omega
  constructor
  · rw [hof]
    rw [replay_concat, h.replay]
    exact if_pos hle
  · rw [hof]
    refine h.ends.concat ?_
    rwa [← length_of_replay h.replay]

end Registry

namespace Session

variable {p : Terms} {s t : Session} {id : ScopeId}

/-- The listener is told of what joins the list, and of nothing else. -/
theorem Stroke.told (h : s.Stroke p t) :
    (t.registry.heard = s.registry.heard ∧ t.builder.instrs = s.builder.instrs) ∨
    ∃ i index, t.registry.heard = s.registry.heard ++ [⟨s.builder.scope, i, index⟩] ∧
      (index = 0 ∨ index = s.builder.instrs.toList.length) ∧
      t.builder.instrs.toList = s.builder.instrs.toList.insertIdx index i := by
  cases h with
  | serves h => exact .inl ⟨h.heard, rfl⟩
  | arranges _ hinstrs => exact .inl ⟨rfl, hinstrs⟩
  | notes => exact .inl ⟨rfl, rfl⟩
  | @appends i =>
    refine .inr ⟨i, _, ?_, .inr rfl, ?_⟩
    · exact Registry.heard_of_record (u := ()) (Registry.runs_record.mpr rfl)
    · rw [← Array.length_toList, List.insertIdx_length_self]
      exact Array.toList_push
  | @prepends i =>
    refine .inr ⟨i, _, ?_, .inl rfl, ?_⟩
    · exact Registry.heard_of_record (u := ()) (Registry.runs_record.mpr rfl)
    · rw [List.insertIdx_zero]
      exact Array.toList_append

theorem Stroke.relays (h : s.Stroke p t)
    (hs : s.registry.Relays s.builder.scope s.builder.instrs.toList) :
    t.registry.Relays t.builder.scope t.builder.instrs.toList := by
  rw [h.scope]
  rcases h.told with ⟨hheard, hinstrs⟩ | ⟨i, index, hheard, hindex, hinstrs⟩
  · rw [hinstrs]
    have hof : t.registry.heardOf s.builder.scope = _ := Registry.heardOf_congr hheard
    exact ⟨hof ▸ hs.replay, hof ▸ hs.ends⟩
  · rw [hinstrs]
    exact hs.told hheard hindex

namespace Strokes

theorem relays (h : s.Strokes p t)
    (hs : s.registry.Relays s.builder.scope s.builder.instrs.toList) :
    t.registry.Relays t.builder.scope t.builder.instrs.toList := by
  induction h with
  | refl => exact hs
  | tail _ hstep ih => exact hstep.relays ih

/-- The listener is told of the scope at work only. -/
theorem heard (h : s.Strokes p t) : ∃ ns, t.registry.heard = s.registry.heard ++ ns ∧
    ∀ n ∈ ns, n.scope = s.builder.scope := by
  induction h with
  | refl => exact ⟨[], (List.append_nil _).symm, fun _ hn => nomatch hn⟩
  | @tail t u hst hstep ih =>
    obtain ⟨ns, hns, hscope⟩ := ih
    rcases hstep.told with ⟨hheard, -⟩ | ⟨i, index, hheard, -⟩
    · exact ⟨ns, hheard.trans hns, hscope⟩
    · refine ⟨ns ++ [⟨t.builder.scope, i, index⟩], ?_, fun n hn => ?_⟩
      · rw [hheard, hns, List.append_assoc]
      · rcases List.mem_append.mp hn with hn | hn
        · exact hscope n hn
        · rw [List.mem_singleton.mp hn]
          exact Strokes.scope hst

theorem heardOf_ne (h : s.Strokes p t) (hid : s.builder.scope ≠ id) :
    t.registry.heardOf id = s.registry.heardOf id := by
  obtain ⟨ns, hns, hscope⟩ := heard h
  exact Registry.heardOf_of_append hns fun n hn => hscope n hn ▸ hid

end Strokes

end Session

namespace Workshop

open Session

variable {p : Terms} {w w' w₀ : Workshop} {d : Doing} {ds before after : List Doing} {id : ScopeId}

theorem Effect.heard (h : w.Effect p d w') : w.registry.heard <+: w'.registry.heard := by
  cases h with
  | manages _ _ _ hheard => exact hheard ▸ List.prefix_rfl
  | opens _ _ hheard => exact hheard ▸ List.prefix_rfl
  | acts _ hu | finishes _ hu | fails _ hu =>
    obtain ⟨ns, hns, -⟩ := Strokes.heard hu
    exact ⟨ns, hns.symm⟩
  | drops => exact List.prefix_rfl

/-- The scope, its builders and what was heard of it stay as they are. -/
structure Spares (w w' : Workshop) (id : ScopeId) : Prop where
  heard : w'.registry.heardOf id = w.registry.heardOf id
  list {list : List Instr} : w'.registry.list? id = some list → w.registry.list? id = some list
  worker {place : Nat} {k' : Worker} : w'.worker? place = some k' → k'.builder.scope = id →
    ∃ k, w.worker? place = some k ∧ k.builder.scope = id ∧ k'.builder.instrs = k.builder.instrs

/-- What one doing has to do with one scope. -/
inductive Touch (p : Terms) (w : Workshop) (id : ScopeId) (d : Doing) : Workshop → Prop
  | spares {w' : Workshop} : w.Spares w' id → Touch p w id d w'
  | opens {g : Registry} {b : Builder} {x : Scope} {outer : List Nat} :
    d.opened? = some id → b.scope = id → b.Unused x →
    (∀ {list}, g.list? id = some list → w.registry.list? id = some list) →
    g.heardOf id = w.registry.heardOf id →
      Touch p w id d (addWorker { w with registry := g } ⟨b, outer, false⟩)
  /-- A builder of the scope stays or leaves. Its list may be stored as it leaves. -/
  | works {place : Nat} {k : Worker} {k' : Option Worker} {u : Session} {g : Registry}
      {refusing : List ScopeId} :
    w.worker? place = some k → k.builder.scope = id → (w.session k).Strokes p u →
    (∀ c ∈ k', c.builder = u.builder) → g.heardOf id = u.registry.heardOf id →
    (∀ {list}, g.list? id = some list →
      w.registry.list? id = some list ∨ k' = none ∧ list = u.builder.instrs.toList) →
      Touch p w id d { w.setWorker place k' with registry := g, refusing }

/-- A builder works, and stays or leaves. -/
theorem touch_of_work {place : Nat} {k : Worker} {k' : Option Worker} {u : Session} {g : Registry}
    {refusing : List ScopeId} (hk : w.worker? place = some k) (hu : (w.session k).Strokes p u)
    (hk' : ∀ c ∈ k', c.builder = u.builder) (hheard : g.heard = u.registry.heard)
    (hlist : ∀ {list}, g.list? id = some list → u.registry.list? id = some list ∨
      id = k.builder.scope ∧ k' = none ∧ list = u.builder.instrs.toList) :
    w.Touch p id d { w.setWorker place k' with registry := g, refusing } := by
  have hof : g.heardOf id = u.registry.heardOf id := Registry.heardOf_congr hheard
  by_cases hid : k.builder.scope = id
  · apply Touch.works hk hid hu hk' hof
    intro list h
    rcases hlist h with h | ⟨-, h⟩
    · exact .inl ((Strokes.serves hu).list? h)
    · exact .inr h
  · apply Touch.spares
    constructor
    · exact hof.trans (Strokes.heardOf_ne hu hid)
    · intro list h
      rcases hlist h with h | ⟨h, -⟩
      · exact (Strokes.serves hu).list? h
      · exact absurd h.symm hid
    · intro place' c hc hscope
      rcases worker?_setWorker_cases hc with ⟨-, heq⟩ | ⟨-, hc⟩
      · rw [hk' c heq, Strokes.scope hu] at hscope
        exact absurd hscope hid
      · exact ⟨c, hc, hscope, rfl⟩

theorem Effect.touch (h : w.Effect p d w') (id : ScopeId) : w.Touch p id d w' := by
  have hleaves : ∀ {u : Session}, ∀ c ∈ (none : Option Worker), c.builder = u.builder :=
    fun c hc => nomatch hc
  cases h with
  | manages _ _ hg hheard =>
    exact .spares ⟨Registry.heardOf_congr hheard, hg.list?, fun hk hscope => ⟨_, hk, hscope, rfl⟩⟩
  | @opens d g b x outer hopened hg hheard _ hunused =>
    have hof : g.heardOf id = w.registry.heardOf id := Registry.heardOf_congr hheard
    by_cases hb : b.scope = id
    · exact .opens (hb ▸ hopened) hb hunused hg.list? hof
    · refine .spares ⟨hof, hg.list?, ?_⟩
      intro place k' hk' hscope
      rcases worker?_addWorker_cases hk' with ⟨-, rfl⟩ | hk
      · exact absurd hscope hb
      · exact ⟨k', hk, hscope, rfl⟩
  | acts hk hu =>
    apply touch_of_work hk hu _ rfl .inl
    intro c hc
    rw [← Option.some.inj hc]
  | @finishes place k u x flags refusing hk hu hx =>
    apply touch_of_work (g := u.registry.setScope k.builder.scope _) hk hu hleaves rfl
    intro list hlist
    by_cases hid : id = k.builder.scope
    · subst hid
      rw [Registry.list?, Registry.scope?_setScope_self hx] at hlist
      exact .inr ⟨rfl, rfl, (Option.some.inj hlist).symm⟩
    · exact .inl ((Registry.list?_setScope_ne hid).symm.trans hlist)
  | fails hk hu => exact touch_of_work hk hu hleaves rfl .inl
  | drops =>
    refine .spares ⟨rfl, fun h => h, ?_⟩
    intro place' k' hk' hscope
    rcases worker?_setWorker_cases hk' with ⟨-, h⟩ | ⟨-, hk⟩
    · cases h
    · exact ⟨k', hk, hscope, rfl⟩

/-- No builder was opened for the scope yet. -/
structure Untouched (w : Workshop) (id : ScopeId) : Prop where
  worker {place : Nat} {k : Worker} : w.worker? place = some k → k.builder.scope ≠ id
  list : w.registry.list? id = none
  heard : w.registry.heardOf id = []

theorem Untouched.touch (hw : w.Untouched id) (hd : d.opened? ≠ some id) (h : w.Touch p id d w') :
    w'.Untouched id := by
  cases h with
  | spares h =>
    constructor
    · intro place k' hk' hscope
      obtain ⟨k, hk, hscope, -⟩ := h.worker hk' hscope
      exact hw.worker hk hscope
    · cases hlist : w'.registry.list? id with
      | none => rfl
      | some list => cases hw.list.symm.trans (h.list hlist)
    · exact h.heard.trans hw.heard
  | opens hopened => exact absurd hopened hd
  | works hk hscope => exact absurd hscope (hw.worker hk)

/-- No more than one builder works on the scope, and the listener was told of all that it built. -/
structure Sole (w : Workshop) (id : ScopeId) : Prop where
  only {place place' : Nat} {k k' : Worker} : w.worker? place = some k →
    w.worker? place' = some k' → k.builder.scope = id → k'.builder.scope = id → place = place'
  working {place : Nat} {k : Worker} : w.worker? place = some k → k.builder.scope = id →
    w.registry.list? id = none ∧ w.registry.Relays id k.builder.instrs.toList
  stored {list : List Instr} : w.registry.list? id = some list → w.registry.Relays id list
  ends : EndsOnly (w.registry.heardOf id)

namespace Sole

theorem of_untouched (hw : w.Untouched id) : w.Sole id := by
  constructor
  · intro place place' k k' hk _ hscope
    exact absurd hscope (hw.worker hk)
  · intro place k hk hscope
    exact absurd hscope (hw.worker hk)
  · intro list hlist
    cases hw.list.symm.trans hlist
  · rw [hw.heard]
    intro before n after h
    simp at h

theorem spares (hw : w.Sole id) (h : w.Spares w' id) : w'.Sole id := by
  have hrelays : ∀ {list}, w.registry.Relays id list → w'.registry.Relays id list := by
    intro list hold
    exact ⟨h.heard ▸ hold.replay, h.heard ▸ hold.ends⟩
  constructor
  · intro place place' k k' hk hk' hscope hscope'
    obtain ⟨k₁, hk₁, hscope₁, -⟩ := h.worker hk hscope
    obtain ⟨k₂, hk₂, hscope₂, -⟩ := h.worker hk' hscope'
    exact hw.only hk₁ hk₂ hscope₁ hscope₂
  · intro place k' hk' hscope
    obtain ⟨k, hk, hscope, hinstrs⟩ := h.worker hk' hscope
    obtain ⟨hnone, hold⟩ := hw.working hk hscope
    refine ⟨?_, hinstrs ▸ hrelays hold⟩
    cases hsome : w'.registry.list? id with
    | none => rfl
    | some list => cases hnone.symm.trans (h.list hsome)
  · intro list hsome
    exact hrelays (hw.stored (h.list hsome))
  · rw [h.heard]
    exact hw.ends

/-- The only builder of the scope is opened. -/
theorem opens {g : Registry} {b : Builder} {x : Scope} {outer : List Nat} (hw : w.Sole id)
    (hnew : w.Untouched id) (hunused : b.Unused x)
    (hlist : ∀ {list}, g.list? id = some list → w.registry.list? id = some list)
    (hheard : g.heardOf id = w.registry.heardOf id) :
    (addWorker { w with registry := g } ⟨b, outer, false⟩).Sole id := by
  have hworker : ∀ {place k'},
      (addWorker { w with registry := g } ⟨b, outer, false⟩).worker? place = some k' →
      k'.builder.scope = id → place = w.workers.length ∧ k' = ⟨b, outer, false⟩ := by
    intro place k' hk' hscope
    rcases worker?_addWorker_cases hk' with hk' | hk'
    · exact hk'
    · exact absurd hscope (hnew.worker hk')
  have hnone : ∀ {list}, g.list? id ≠ some list := fun h => by
    cases hnew.list.symm.trans (hlist h)
  have hends : EndsOnly (g.heardOf id) := hheard ▸ hw.ends
  constructor
  · intro place place' k k' hk hk' hscope hscope'
    rw [(hworker hk hscope).1, (hworker hk' hscope').1]
  · intro place k' hk' hscope
    rw [(hworker hk' hscope).2, hunused.instrs]
    have hreplay : replay (g.heardOf id) = some [] := by
      rw [hheard, hnew.heard]
      rfl
    exact ⟨Option.eq_none_iff_forall_ne_some.mpr fun list => hnone, hreplay, hends⟩
  · exact fun h => absurd h hnone
  · exact hends

/-- The only builder of the scope works on, or it leaves. -/
theorem works {place : Nat} {k : Worker} {k' : Option Worker} {u : Session} {g : Registry}
    {refusing : List ScopeId} (hw : w.Sole id) (hk : w.worker? place = some k)
    (hscope : k.builder.scope = id) (hu : (w.session k).Strokes p u)
    (hk' : ∀ c ∈ k', c.builder = u.builder) (hheard : g.heardOf id = u.registry.heardOf id)
    (hlist : ∀ {list}, g.list? id = some list →
      w.registry.list? id = some list ∨ k' = none ∧ list = u.builder.instrs.toList) :
    Sole { w.setWorker place k' with registry := g, refusing } id := by
  subst hscope
  obtain ⟨hopen, hold⟩ := hw.working hk rfl
  have hrelays : g.Relays k.builder.scope u.builder.instrs.toList := by
    have hnow := Strokes.relays hu hold
    rw [Strokes.scope hu] at hnow
    exact ⟨hheard ▸ hnow.replay, hheard ▸ hnow.ends⟩
  have hstored : ∀ {list}, g.list? k.builder.scope = some list →
      k' = none ∧ list = u.builder.instrs.toList := by
    intro list h
    rcases hlist h with h | h
    · cases hopen.symm.trans h
    · exact h
  have hworker : ∀ {place' c}, (w.setWorker place k').worker? place' = some c →
      c.builder.scope = k.builder.scope → place' = place ∧ k' = some c := by
    intro place' c hc hscope
    rcases worker?_setWorker_cases hc with hc | ⟨hne, hc⟩
    · exact hc
    · exact absurd (hw.only hc hk hscope rfl) hne
  constructor
  · intro place₁ place₂ k₁ k₂ hk₁ hk₂ hscope₁ hscope₂
    rw [(hworker hk₁ hscope₁).1, (hworker hk₂ hscope₂).1]
  · intro place' c hc hscope
    obtain ⟨-, hsome⟩ := hworker hc hscope
    rw [hk' c hsome]
    refine ⟨?_, hrelays⟩
    cases h : g.list? k.builder.scope with
    | none => rfl
    | some list => cases hsome.symm.trans (hstored h).1
  · intro list h
    rw [(hstored h).2]
    exact hrelays
  · exact hrelays.ends


theorem touch (hw : w.Sole id) (hfresh : d.opened? = some id → w.Untouched id)
    (h : w.Touch p id d w') : w'.Sole id := by
  cases h with
  | spares h => exact hw.spares h
  | opens hopened _ hunused hlist hheard => exact hw.opens (hfresh hopened) hunused hlist hheard
  | works hk hscope hu hk' hheard hlist => exact hw.works hk hscope hu hk' hheard hlist

end Sole

/-- How many builders the run opens for the scope. -/
def openings (id : ScopeId) (ds : List Doing) : Nat := ds.countP (·.opened? = some id)

theorem untouched_empty (config : Config) (id : ScopeId) : (empty config).Untouched id where
  worker h := nomatch h
  list := rfl
  heard := rfl

/-- A scope that one builder was opened for is that builder's alone. -/
theorem sole_of_run {config : Config} (hrun : (Workshop.empty config).performAll ds = some w)
    (hone : openings id ds ≤ 1) : w.Sole id := by
  have h := (run_of_effects (p := ⟨False, False⟩)
    (I := fun ds w => (openings id ds = 0 → w.Untouched id) ∧ (openings id ds ≤ 1 → w.Sole id))
    ?_ (.empty config) ?_ hrun (honours_nothing _ _)).2
  · exact h.2 hone
  · rintro ds d w w' - ⟨hnone, hone⟩ - - heffect
    have hcount : openings id (ds ++ [d]) = openings id ds + openings id [d] := List.countP_append
    have hopens : d.opened? = some id → openings id [d] = 1 := fun h => by simp [openings, h]
    rw [hcount]
    constructor
    · intro hzero
      have hd : d.opened? ≠ some id := fun h => by
        have hopened := hopens h
        omega
      exact (hnone (by omega)).touch hd (heffect.touch id)
    · intro hle
      apply (hone (by omega)).touch _ (heffect.touch id)
      intro h
      have hopened := hopens h
      exact hnone (by omega)
  · exact ⟨fun _ => untouched_empty config id, fun _ => .of_untouched (untouched_empty config id)⟩

/-- The list that a builder at work has for the scope, or that a finished one left. -/
inductive Lists (w : Workshop) (id : ScopeId) : List Instr → Prop
  | working {place : Nat} {k : Worker} : w.worker? place = some k → k.builder.scope = id →
    Lists w id k.builder.instrs.toList
  | stored {list : List Instr} : w.registry.list? id = some list → Lists w id list

theorem Sole.relays (hw : w.Sole id) {list : List Instr} (h : w.Lists id list) :
    w.registry.Relays id list := by
  cases h with
  | working hk hscope => exact (hw.working hk hscope).2
  | stored hlist => exact hw.stored hlist

theorem heardOf_of_run (hw₀ : w₀.Staffed p) (hrun : w₀.performAll ds = some w)
    (hkept : w₀.Honours p ds) : w₀.registry.heardOf id <+: w.registry.heardOf id := by
  have hheard : w₀.registry.heard <+: w.registry.heard := by
    apply (run_of_effects (I := fun _ w => w₀.registry.heard <+: w.registry.heard) _ hw₀
      List.prefix_rfl hrun hkept).2
    intro ds d w w' _ h _ _ heffect
    exact h.trans heffect.heard
  exact hheard.filter _

/-- In any run, whoever inserts each instruction that the listener is told of for a scope at its
index has the list of that scope's only builder at all times, and what it stored after it is
finished. All that joins the list does so in front or behind, and what is there stays there in its
order. -/
theorem replayed_in_place {config : Config}
    (hrun : (Workshop.empty config).performAll ds = some w) (hone : openings id ds = 1) :
    (∀ list, w.Lists id list → replay (w.registry.heardOf id) = some list) ∧
    ((Workshop.empty config).FinishedIn ds id → ∃ list, w.registry.list? id = some list) ∧
    EndsOnly (w.registry.heardOf id) ∧
    ∀ before after u, ds = before ++ after → (Workshop.empty config).performAll before = some u →
      (∀ list, u.Lists id list → replay (u.registry.heardOf id) = some list) ∧
      u.registry.heardOf id <+: w.registry.heardOf id ∧
      ∀ early late, u.Lists id early → w.Lists id late → early <:+: late := by
  have hw : w.Sole id := sole_of_run hrun hone.le
  refine ⟨fun list h => (hw.relays h).replay, list?_of_finishedIn hrun, hw.ends, ?_⟩
  rintro before after u rfl hbefore
  have hopenings : openings id before ≤ 1 :=
    hone ▸ (List.sublist_append_left before after).countP_le
  have hu : u.Sole id := sole_of_run hbefore hopenings
  have hafter : u.performAll after = some w := (performAll_append hbefore).symm.trans hrun
  have hstaffed := (advances_of_run (.empty config) hbefore (honours_nothing _ _)).1
  have hheard : u.registry.heardOf id <+: w.registry.heardOf id :=
    heardOf_of_run hstaffed hafter (honours_nothing _ _)
  refine ⟨fun list h => (hu.relays h).replay, hheard, fun early late hearly hlate => ?_⟩
  obtain ⟨ns, hns⟩ := hheard
  apply isInfix_of_replay (hns ▸ hw.ends) (hu.relays hearly).replay
  rw [hns]
  exact (hw.relays hlate).replay

/-- A method and a block in it are built side by side, and not everything works out. -/
def sideBySide : List Doing :=
  [.op (.newScope .method ⟨"m"⟩ "main.rb" 0 none),
    .op (.newScope .closure ⟨"_CLOSURE_"⟩ "main.rb" 1 (some ⟨0⟩)),
    .op (.openRoot ⟨0⟩), .op (.act 0 (.note 3)), .op (.act 0 (.emit .nop)),
    .op (.openInside 0 ⟨1⟩ true), .op (.act 1 (.emit .nop)), .op (.act 0 .retry),
    .op (.act 0 (.emitResult .nop)), .op (.act 0 .yieldClosureVar), .op (.finish 1),
    .op (.finish 0)]

theorem replayed_in_place_sideBySide :
    openings ⟨0⟩ sideBySide = 1 ∧ ∃ w ∈ (Workshop.empty {}).performAll sideBySide,
      ∃ list, w.registry.list? ⟨0⟩ = some list ∧ list.length = 3 ∧
        replay (w.registry.heardOf ⟨0⟩) = some list ∧ EndsOnly (w.registry.heardOf ⟨0⟩) := by
  have hone : openings ⟨0⟩ sideBySide = 1 := by decide
  have hrun : ∃ w ∈ (Workshop.empty {}).performAll sideBySide,
      ∃ list ∈ w.registry.list? ⟨0⟩, list.length = 3 := by decide +kernel
  obtain ⟨w, hw, list, hlist, hlength⟩ := hrun
  obtain ⟨hreplay, -, hends, -⟩ := replayed_in_place hw hone
  exact ⟨hone, w, hw, list, hlist, hlength, hreplay list (.stored hlist), hends⟩

end Workshop

end ScopeIR
