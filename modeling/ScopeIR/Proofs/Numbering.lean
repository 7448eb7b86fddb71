import ScopeIR.Proofs.Sealing

/-! Runs in which callers name only what is there. All scopes stay in order, every walk outwards
ends, and closures never share a temporary. -/

namespace ScopeIR

namespace Session

variable {s t : Session} {v : Variable}

theorem nextTemp_of_temp (h : s.Runs temp v t) :
    ∃ i, s.registry.Runs (RegistryM.nextTemp s.tempScope) i t.registry := by
  obtain ⟨i, g, x, hi, -, -, rfl⟩ := runs_temp h
  exact ⟨i, hi⟩

end Session

namespace Registry

open Session

variable {kept : Prop} {g g' g'' : Registry} {id : ScopeId} {v : Variable} {vs : List Variable}

theorem advances_of_temp {s t : Session} (h : s.Runs temp v t) :
    s.registry.Advances kept t.registry := by
  obtain ⟨i, hi⟩ := nextTemp_of_temp h
  exact .single (.changes (.serves (.nextTemp hi)))

/-- Temporaries that are handed out one after another, by whatever builders, as time passes. -/
inductive HandsOut (kept : Prop) : Registry → List Variable → Registry → Prop
  | rests {g g' : Registry} : g.Advances kept g' → HandsOut kept g [] g'
  | hands {g g' : Registry} {s t : Session} {v : Variable} {vs : List Variable} :
    g.Advances kept s.registry → s.Runs temp v t → HandsOut kept t.registry vs g' →
      HandsOut kept g (v :: vs) g'

namespace HandsOut

theorem of_advances (h : g.Advances kept g') (h' : HandsOut kept g' vs g'') :
    HandsOut kept g vs g'' := by
  cases h' with
  | rests h' => exact .rests (h.trans h')
  | hands h' ht hrest => exact .hands (h.trans h') ht hrest

theorem of_mem (h : HandsOut kept g vs g') (hv : v ∈ vs) :
    ∃ s t : Session, g.Advances kept s.registry ∧ s.Runs temp v t := by
  induction h with
  | rests => cases hv
  | hands hs ht _ ih =>
    rcases List.mem_cons.mp hv with rfl | hv
    · exact ⟨_, _, hs, ht⟩
    · obtain ⟨s', t', hs', ht'⟩ := ih hv
      exact ⟨s', t', (hs.trans (advances_of_temp ht)).trans hs', ht'⟩

/-- No temporary of a closure is handed out twice. -/
theorem nodup (h : HandsOut kept g vs g') (hkept : kept) (hg : g.Formed) :
    (vs.filter (·.isOfClosure)).Nodup := by
  refine List.pairwise_filter.mpr ?_
  induction h with
  | rests => exact .nil
  | @hands g g' s t v vs hs ht hrest ih =>
    have hformed := hg.advances hkept hs
    refine List.pairwise_cons.mpr ⟨fun v' hv' hclosure _ => ?_, ?_⟩
    · obtain ⟨s', t', hlater, ht'⟩ := hrest.of_mem hv'
      exact temp_ne_of_later hkept hformed ht hlater ht' hclosure
    · exact ih (hformed.advances hkept (advances_of_temp ht))

end HandsOut

end Registry

namespace Workshop

open Session Registry

variable {p : Terms} {w w' w₀ : Workshop} {d : Doing} {ds : List Doing}

/-- The temporary that the doing asks a builder for. -/
def temp? (w : Workshop) : Doing → Option Variable
  | .op (.act place .temp) => do
    let k ← w.worker? place
    (Session.temp (w.session k)).1.toOption
  | _ => none

/-- The temporaries that a run asks builders for, in order. -/
def temps : Workshop → List Doing → List Variable
  | _, [] => []
  | w, d :: ds =>
    (w.temp? d).toList ++ match w.perform d with
      | some w' => temps w' ds
      | none => []

theorem runs_of_temp? {v : Variable} (hv : w.temp? d = some v) (h : w.perform d = some w') :
    ∃ s t : Session, s.registry = w.registry ∧ s.Runs temp v t ∧ t.registry = w'.registry := by
  unfold temp? at hv
  split at hv
  · next place =>
    obtain ⟨k, hk, hv⟩ := Option.bind_eq_some_iff.mp hv
    obtain ⟨a, t, ht, rfl⟩ := settled_of_step hk h
    have hruns : (w.session k).Runs temp v (temp (w.session k)).2 := by
      cases hr : (temp (w.session k)).1 <;> rw [hr] at hv <;> cases hv
      exact runs_of_ok hr
    have hrun : (w.session k).Runs Act.temp.run () (temp (w.session k)).2 :=
      runs_bind.mpr ⟨v, _, hruns, runs_pure.mpr ⟨rfl, rfl⟩⟩
    refine ⟨w.session k, _, rfl, hruns, ?_⟩
    rw [eq_of_settled ht, hrun]
  · cases hv

/-- What a run hands out. -/
theorem handsOut_of_run (hw₀ : w₀.Staffed p) (hrun : w₀.performAll ds = some w)
    (hkept : w₀.Honours p ds) : HandsOut p.names w₀.registry (temps w₀ ds) w.registry := by
  induction ds generalizing w₀ with
  | nil =>
    cases hrun
    exact .rests .refl
  | cons d ds ih =>
    obtain ⟨w₁, hd, hrun⟩ := Option.bind_eq_some_iff.mp hrun
    have heffect := effect_of_perform hw₀ hkept.1 hd
    have hrest := ih (hw₀.effect heffect) hrun (hkept.2 w₁ hd)
    unfold temps
    rw [hd]
    cases hv : w₀.temp? d with
    | none => exact hrest.of_advances heffect.advances
    | some v =>
      obtain ⟨s, t, hs, ht, hlater⟩ := runs_of_temp? hv hd
      exact .hands (hs ▸ .refl) ht (hlater ▸ hrest)

/-- Chains of scopes are finite, and on the way outwards numbers get smaller. -/
theorem chains_of_formed {g : Registry} (hg : g.Formed) {id : ScopeId} (hid : g.Has id) :
    ∃ chain, g.Walk id chain ∧ (chain.Pairwise fun inner outer => outer.id.index < inner.id.index) ∧
      g.lexicalChain id = .ok chain ∧ g.nearestMethod id = .ok (chain.find? (·.kind = .method)) ∧
      g.nearestFrame id = .ok (match chain.find? (!·.kind.isClosureLike) with
        | some x => x.id
        | none => id) := by
  obtain ⟨chain, hwalk, hchain⟩ := hg.walk hid
  refine ⟨chain, hwalk, (hg.pairwise_walk hwalk).2, hchain, ?_, ?_⟩
  · rw [nearestMethod, hchain]
    rfl
  · rw [nearestFrame, hchain]
    rfl

/-- In a run whose callers name only scopes that are there, scopes have their numbers, parents are
older, closures are numbered as they were made and joined their parents once. Every walk outwards
ends, and of the temporaries that belong to closures none is handed out twice. -/
theorem numbered_of_run {config : Config} (hrun : (Workshop.empty config).performAll ds = some w)
    (hkept : (Workshop.empty config).Honours ⟨True, False⟩ ds) :
    w.registry.Formed ∧
    (∀ id, w.registry.Has id → ∃ chain, w.registry.Walk id chain ∧
      (chain.Pairwise fun inner outer => outer.id.index < inner.id.index) ∧
      w.registry.lexicalChain id = .ok chain ∧
      w.registry.nearestMethod id = .ok (chain.find? (·.kind = .method)) ∧
      w.registry.nearestFrame id = .ok (match chain.find? (!·.kind.isClosureLike) with
        | some x => x.id
        | none => id)) ∧
    ((temps (Workshop.empty config) ds).filter (·.isOfClosure)).Nodup ∧
    ∀ vs, HandsOut True (Workshop.empty config).registry vs w.registry →
      (vs.filter (·.isOfClosure)).Nodup := by
  have hempty : (Workshop.empty config).Staffed ⟨True, False⟩ := .empty config
  have hnone : (Workshop.empty config).registry.Formed := formed_empty config
  have hformed := (advances_of_run hempty hrun hkept).1.formed trivial
  refine ⟨hformed, fun id hid => chains_of_formed hformed hid, ?_,
    fun vs h => h.nodup trivial hnone⟩
  exact (handsOut_of_run hempty hrun hkept).nodup trivial hnone

/-- A block in a block of a method, and builders for both that ask for temporaries. -/
def askingBlocks : List Doing :=
  [.op (.newScope .method ⟨"m"⟩ "main.rb" 0 none),
    .op (.newScope .closure ⟨"_CLOSURE_"⟩ "main.rb" 1 (some ⟨0⟩)),
    .op (.newScope .closure ⟨"_CLOSURE_"⟩ "main.rb" 2 (some ⟨1⟩)),
    .op (.openRoot ⟨0⟩), .op (.openInside 0 ⟨1⟩ false), .op (.openInside 1 ⟨2⟩ true),
    .op (.act 1 .temp), .op (.act 2 .temp),
    .op (.act 0 (.copyEnsure ⟨⟨"LBL", 0⟩, ⟨"LBL", 1⟩, ⟨"LBL", 2⟩, ⟨"LBL", 3⟩, .unrescued, none,
      [.call ⟨.normal, none, ⟨"each"⟩, .var .self, [], .closure ⟨1⟩, ∅, false⟩]⟩)),
    .op (.openRoot ⟨2⟩), .op (.act 3 .temp), .op (.act 0 .temp)]

theorem numbered_of_run_askingBlocks :
    (Workshop.empty {}).Honours ⟨True, False⟩ askingBlocks ∧
    ∃ w ∈ (Workshop.empty {}).performAll askingBlocks, w.registry.Formed ∧
      temps (Workshop.empty {}) askingBlocks = [.temp (.ofClosure 0 0), .temp (.ofClosure 0 1),
        .temp (.ofClosure 1 0), .temp (.plain 0)] ∧
      ((temps (Workshop.empty {}) askingBlocks).filter (·.isOfClosure)).Nodup ∧
      ∃ chain, w.registry.Walk ⟨2⟩ chain ∧
        chain.Pairwise fun inner outer => outer.id.index < inner.id.index := by
  have hkept : (Workshop.empty {}).Honours ⟨True, False⟩ askingBlocks := by decide +kernel
  have hrun : ∃ w ∈ (Workshop.empty {}).performAll askingBlocks, w.registry.Has ⟨2⟩ := by
    decide +kernel
  obtain ⟨w, hw, hblock⟩ := hrun
  obtain ⟨hformed, hwalks, hnodup, -⟩ := numbered_of_run hw hkept
  obtain ⟨chain, hwalk, hpairs, -⟩ := hwalks ⟨2⟩ hblock
  exact ⟨hkept, w, hw, hformed, by decide +kernel, hnodup, chain, hwalk, hpairs⟩

end Workshop

end ScopeIR
