import ScopeIR.Proofs.FreshCopies
import ScopeIR.Proofs.Levels
import ScopeIR.Proofs.Sealing

/-! Where class variables are held. The first eval, module or class outwards decides it: a module or
class holds them, and the scopes up to there are known; behind an eval, or where there is none of them, the
program looks the holder up when it runs. -/

namespace ScopeIR

/-- Outwards, `x` is the first scope on the chain that decides where class variables are held, and `inner`
are those inside of it. -/
structure DecidedBy (chain inner : List Scope) (x : Scope) : Prop where
  decides : x.kind.decidesClassVars
  first : ∀ y ∈ inner, ¬ y.kind.decidesClassVars
  outwards : ∃ outer, chain = inner ++ x :: outer

section Depth

variable {chain inner outer : List Scope} {x : Scope}

/-- Scopes that do not decide are counted as static scopes are. -/
theorem classVarDepth?_append_of_undecided (h : ∀ y ∈ inner, ¬ y.kind.decidesClassVars) :
    classVarDepth? (inner ++ outer) = (classVarDepth? outer).map (· + staticLevels inner) := by
  induction inner with
  | nil => exact Option.map_id'.symm
  | cons x inner ih =>
    rw [List.cons_append, classVarDepth?_cons (h x List.mem_cons_self),
      ih fun y hy => h y (List.mem_cons_of_mem _ hy), Option.map_map,
      staticLevels_cons x inner]
    simp only [Function.comp_def, Nat.add_assoc]

theorem DecidedBy.classVarDepth?_eq (h : DecidedBy chain inner x) :
    classVarDepth? chain = if x.kind = .evalScript then none else some (staticLevels inner) := by
  obtain ⟨hdecides, hinner, outer, rfl⟩ := h
  rw [classVarDepth?_append_of_undecided hinner, classVarDepth?]
  cases hkind : x.kind with
  | evalScript => rfl
  | moduleBody | classBody => simp [ScopeKind.holdsClassVars]
  | _ => rw [hkind] at hdecides; cases hdecides

theorem DecidedBy.mem (h : DecidedBy chain inner x) : x ∈ chain := by
  obtain ⟨outer, rfl⟩ := h.outwards
  exact List.mem_append_right _ List.mem_cons_self

theorem DecidedBy.isEval_of_not_isModuleBody (h : DecidedBy chain inner x)
    (hx : ¬ x.kind.isModuleBody) : x.kind = .evalScript := by
  have hdecides := h.decides
  cases hkind : x.kind with
  | evalScript => rfl
  | moduleBody | classBody => exact absurd (hkind ▸ rfl) hx
  | _ => rw [hkind] at hdecides; cases hdecides

/-- The search comes to nothing where an eval decides or no scope does. -/
theorem classVarDepth?_eq_none (h : ∀ inner x, DecidedBy chain inner x → x.kind = .evalScript) :
    classVarDepth? chain = none := by
  cases hfind : chain.find? (·.kind.decidesClassVars) with
  | none =>
    have hnone := List.find?_eq_none.mp hfind
    rw [← List.append_nil chain, classVarDepth?_append_of_undecided hnone]
    rfl
  | some x =>
    obtain ⟨hx, inner, outer, hchain, hinner⟩ := List.find?_eq_some_iff_append.mp hfind
    have hdecided : DecidedBy chain inner x :=
      ⟨hx, fun y hy => by simpa using hinner y hy, outer, hchain⟩
    rw [hdecided.classVarDepth?_eq, if_pos (h inner x hdecided)]

end Depth

namespace Registry

variable {g : Registry} {id : ScopeId} {chain inner outer : List Scope} {x : Scope}

theorem Walk.lexicalChain_eq (hg : g.Arranged) (h : g.Walk id chain) :
    g.lexicalChain id = .ok chain := by
  induction h with
  | last hx hp => rw [Registry.lexicalChain_eq hx, hp]
  | outwards hx hp _ ih =>
    rw [Registry.lexicalChain_eq hx, hp]
    dsimp only
    rw [if_pos (UInt64.lt_iff_toNat_lt.mpr (hg.parent hx hp)), ih]
    rfl

/-- A walk goes on from each of its scopes. -/
theorem Walk.from_mem (hg : g.Arranged) (h : g.Walk id (inner ++ x :: outer)) :
    g.scope? x.id = some x ∧ g.Walk x.id (x :: outer) := by
  induction inner generalizing id with
  | nil =>
    have hx : g.scope? id = some x := by cases h <;> assumption
    rw [hg.eq_id hx]
    exact ⟨hx, h⟩
  | cons y inner ih =>
    rw [List.cons_append] at h
    cases hrest : inner ++ x :: outer with
    | nil => exact absurd hrest (by simp)
    | cons z rest =>
      rw [hrest] at h
      cases h with
      | outwards _ _ hwalk => exact ih (hrest ▸ hwalk)

theorem Walk.length_le (hg : g.Arranged) (h : g.Walk id chain) :
    chain.length ≤ id.index.toNat + 1 := by
  induction h with
  | last => exact Nat.le_add_left ..
  | outwards hx hp _ ih =>
    have hlt := hg.parent hx hp
    rw [List.length_cons]
    omega

/-- The levels inside of a scope of a walk fit into a word. -/
theorem Walk.staticLevels_lt (hg : g.Arranged) (h : g.Walk id (inner ++ x :: outer)) :
    staticLevels inner < UInt64.size := by
  have hlength := h.length_le hg
  have hlevels : staticLevels inner ≤ inner.length := List.countP_le_length
  have hindex : id.index.toNat < UInt64.size := id.index.toNat_lt_size
  rw [List.length_append, List.length_cons] at hlength
  omega

end Registry

namespace Session

variable {s : Session} {chain inner : List Scope} {x : Scope}

/-- A holder that is known is named, and nothing else happens. -/
theorem classVarContainer_of_held (hg : s.registry.Arranged)
    (hwalk : s.registry.Walk s.builder.scope chain) (h : DecidedBy chain inner x)
    (hx : x.kind ≠ .evalScript) (declares : Bool) : ∃ depth, depth.toNat = staticLevels inner ∧
      classVarContainer declares s = (.ok (.scopeModule depth), s) := by
  have hdepth := h.classVarDepth?_eq
  rw [if_neg hx] at hdepth
  obtain ⟨outer, houter⟩ := h.outwards
  refine ⟨(staticLevels inner).toUInt64, ?_, ?_⟩
  · exact UInt64.toNat_ofNat_of_lt' ((houter ▸ hwalk).staticLevels_lt hg)
  · have hruns : s.Runs (classVarContainer declares)
        (.scopeModule (staticLevels inner).toUInt64) s := by
      simp only [classVarContainer, runs_bind, runs_get, runs_current, runs_liftM_except]
      refine ⟨_, _, ⟨rfl, rfl⟩, _, _, ⟨rfl, rfl⟩, chain, _, ⟨hwalk.lexicalChain_eq hg, rfl⟩, ?_⟩
      rw [hdepth]
      exact runs_pure.mpr ⟨rfl, rfl⟩
    exact hruns

/-- A holder that is not known is looked up by one instruction, which leaves it in a variable that was
never handed out before. -/
theorem classVarContainer_of_unheld (hs : s.Ready)
    (hchain : s.registry.lexicalChain s.builder.scope = .ok chain)
    (hdepth : classVarDepth? chain = none) (declares : Bool) :
    (∃ t, classVarContainer declares s = (.error .overflow, t)) ∨
    ∃ v t ls, s.Runs (classVarContainer declares) (.var v) t ∧ ¬ s.PastVar v ∧ t.PastVar v ∧
      s.Pending ls ∧ s.Lays t
        (ls ++ [.classVarModule v .currentScope (if declares then none else some (.var .self))]) [] := by
  have hworks : s.Works (classVarContainer declares) := by
    unfold classVarContainer
    refine works_bind works_get fun hget => ?_
    obtain ⟨rfl, rfl⟩ := runs_get.mp hget
    refine works_bind works_current fun hcurrent => ?_
    obtain ⟨rfl, rfl⟩ := runs_current.mp hcurrent
    refine works_bind (works_of_runs (runs_liftM_except.mpr ⟨hchain, rfl⟩)) fun hlift => ?_
    obtain ⟨heq, rfl⟩ := runs_liftM_except.mp hlift
    obtain rfl := Except.ok.inj (hchain.symm.trans heq)
    rw [hdepth]
    refine works_bind hs.works_temp fun htemp => ?_
    exact works_bind ((hs.adds (takesTemp_of_temp htemp).toAdds).works_emit _) fun _ => works_pure
  rcases hworks with ⟨o, t, hr⟩ | hoverflow
  · have hsteps := hr
    simp only [classVarContainer, runs_bind, runs_get, runs_current, runs_liftM_except] at hsteps
    obtain ⟨_, _, ⟨rfl, rfl⟩, _, _, ⟨rfl, rfl⟩, _, _, ⟨heq, rfl⟩, hsteps⟩ := hsteps
    obtain rfl := Except.ok.inj (hchain.symm.trans heq)
    simp only [hdepth, runs_bind, runs_pure] at hsteps
    obtain ⟨v, u, htemp, _, _, hemit, rfl, rfl⟩ := hsteps
    have htaken := takesTemp_of_temp htemp
    have hcounts := counts_of_temp htemp
    obtain ⟨ls, hls, ht, -⟩ := lays_of_emit hemit
    refine .inr ⟨v, _, ls, hr, fun hpast => ?_, fun _ => ?_, hcounts.pending hls, hcounts.lays.trans ht⟩
    · exact Nat.lt_irrefl _ ((hpast htaken.isTemp).trans_le htaken.ge)
    · exact htaken.lt.trans_le ht.temps_le
  · exact .inl hoverflow

/-- The frame is owned by a scope of the chain, inside of which there are only closures. -/
theorem owner_of_walk (hg : s.registry.Arranged) (hwalk : s.registry.Walk s.builder.scope chain) :
    ∃ inner x outer, chain = inner ++ x :: outer ∧ (∀ y ∈ inner, y.kind.isClosureLike) ∧
      s.registry.nearestFrame s.builder.scope = .ok x.id := by
  have hchain := hwalk.lexicalChain_eq hg
  cases hfind : chain.find? (!·.kind.isClosureLike) with
  | none =>
    obtain ⟨x, outer, rfl, hx, -⟩ := Registry.cons_of_lexicalChain hchain
    refine ⟨[], x, outer, rfl, nofun, ?_⟩
    rw [Registry.nearestFrame, hchain, hg.eq_id hx]
    exact congrArg Except.ok (by rw [hfind])
  | some x =>
    obtain ⟨-, inner, outer, rfl, hinner⟩ := List.find?_eq_some_iff_append.mp hfind
    refine ⟨inner, x, outer, rfl, fun y hy => by simpa using hinner y hy, ?_⟩
    rw [Registry.nearestFrame, hchain]
    exact congrArg Except.ok (by rw [hfind])

/-- At the top of a script there is no module or class around. -/
theorem isTopScope_eq (hg : s.registry.Arranged) (hwalk : s.registry.Walk s.builder.scope chain) :
    ∃ top, isTopScope s = (.ok top, s) ∧ (top → ∀ x ∈ chain, ¬ x.kind.isModuleBody) := by
  obtain ⟨inner, x, outer, rfl, hinner, hframe⟩ := owner_of_walk hg hwalk
  obtain ⟨hx, hfrom⟩ := hwalk.from_mem hg
  have hruns : s.Runs isTopScope ((x.kind = .scriptBody || s.builder.evalType = some .instanceEval) &&
      !(x :: outer).any (·.kind.isModuleBody)) s := by
    simp only [isTopScope, runs_bind, runs_get, runs_current, runs_liftM_except, runs_pure]
    exact ⟨_, _, ⟨rfl, rfl⟩, _, _, ⟨rfl, rfl⟩, _, _, ⟨hframe, rfl⟩, _, _,
      ⟨hfrom.lexicalChain_eq hg, rfl⟩, _, _, ⟨Registry.scope_eq hx, rfl⟩, rfl, rfl⟩
  refine ⟨_, hruns, fun htop y hy hmodule => ?_⟩
  have hnone := (Bool.and_eq_true_iff.mp htop).2
  -- the search starts at the owner of the frame; what it skips are closures
  rcases List.mem_append.mp hy with hy | hy
  · have hclosure := hinner y hy
    cases hkind : y.kind <;> rw [hkind] at hclosure hmodule <;> cases hclosure <;> cases hmodule
  · have hany : (x :: outer).any (·.kind.isModuleBody) := List.any_eq_true.mpr ⟨y, hy, hmodule⟩
    rw [hany] at hnone
    cases hnone

end Session

namespace Workshop

open Session

variable {config : Config} {ds : List Doing} {w : Workshop} {place : Nat} {k : Worker}

/-- In any run and at any builder, class variables are held by the scope that decides it outwards, unless
that is an eval: the builder then names it by the static scopes inside of it, and does nothing. Otherwise
it writes one instruction that looks the holder up, into a new variable, and passes self on unless it
declares something. Holders are never known at the top of a script. -/
theorem classVarContainer_of_run (hrun : (Workshop.empty config).performAll ds = some w)
    (hk : w.worker? place = some k) (declares : Bool) :
    ∃ chain, w.registry.Walk k.builder.scope chain ∧
      w.registry.lexicalChain k.builder.scope = .ok chain ∧
      (∀ inner x, DecidedBy chain inner x → x.kind ≠ .evalScript →
        ∃ depth, depth.toNat = staticLevels inner ∧
          classVarContainer declares (w.session k) = (.ok (.scopeModule depth), w.session k)) ∧
      ((∀ inner x, DecidedBy chain inner x → x.kind = .evalScript) →
        (∃ t, classVarContainer declares (w.session k) = (.error .overflow, t)) ∨
        ∃ v t ls, (w.session k).Runs (classVarContainer declares) (.var v) t ∧
          ¬ (w.session k).PastVar v ∧ t.PastVar v ∧ (w.session k).Pending ls ∧
          (w.session k).Lays t (ls ++ [.classVarModule v .currentScope
            (if declares then none else some (.var .self))]) []) ∧
      ∃ top, isTopScope (w.session k) = (.ok top, w.session k) ∧
        (top → ∀ depth t, ¬ (w.session k).Runs (classVarContainer declares) (.scopeModule depth) t) := by
  obtain ⟨hstaffed, hadvances⟩ := advances_of_run (.empty config) hrun (honours_nothing _ _)
  have hg : w.registry.Arranged := (Registry.formed_empty config).arranged.advances hadvances
  have hsound := hstaffed.session hk
  obtain ⟨chain, hwalk, hchain⟩ := hg.walk (hstaffed.fit hk).scope
  have hready : (w.session k).Ready :=
    ⟨Registry.has_iff.mp hsound.tempOwner, chain, hchain⟩
  have hheld : ∀ inner x, DecidedBy chain inner x → x.kind ≠ .evalScript →
      ∃ depth, depth.toNat = staticLevels inner ∧
        classVarContainer declares (w.session k) = (.ok (.scopeModule depth), w.session k) :=
    fun _ _ h hx => classVarContainer_of_held hg hwalk h hx declares
  have hunheld := fun h =>
    classVarContainer_of_unheld hready hchain (classVarDepth?_eq_none h) declares
  obtain ⟨top, htop, hnone⟩ := isTopScope_eq (s := w.session k) hg hwalk
  refine ⟨chain, hwalk, hchain, hheld, hunheld, top, htop, fun h depth t hruns => ?_⟩
  have hevals : ∀ inner x, DecidedBy chain inner x → x.kind = .evalScript := fun inner x hx =>
    hx.isEval_of_not_isModuleBody (hnone h x hx.mem)
  rcases hunheld hevals with ⟨u, hoverflow⟩ | ⟨v, u, -, hvar, -⟩
  · cases hruns.symm.trans hoverflow
  · cases hruns.symm.trans hvar

/-- The body of a `for` loop in a block in a method of a class, and a block outside of the class. -/
def blocksAroundClass : List Doing :=
  [.op (.newScope .scriptBody ⟨"main"⟩ "main.rb" 0 none),
    .op (.newScope .classBody ⟨"C"⟩ "main.rb" 1 (some ⟨0⟩)),
    .op (.newScope .method ⟨"m"⟩ "main.rb" 2 (some ⟨1⟩)),
    .op (.newScope .closure ⟨"_CLOSURE_"⟩ "main.rb" 3 (some ⟨2⟩)),
    .op (.newScope .forBody ⟨"each"⟩ "main.rb" 4 (some ⟨3⟩)),
    .op (.newScope .closure ⟨"_CLOSURE_"⟩ "main.rb" 5 (some ⟨0⟩)),
    .op (.openRoot ⟨4⟩), .op (.openRoot ⟨5⟩), .op (.act 1 (.note 6))]

theorem classVarContainer_of_run_blocksAroundClass : ∃ w k k',
    (Workshop.empty {}).performAll blocksAroundClass = some w ∧ w.worker? 0 = some k ∧
    w.worker? 1 = some k' ∧
    (∃ depth, depth.toNat = 2 ∧
      classVarContainer false (w.session k) = (.ok (.scopeModule depth), w.session k)) ∧
    (∃ v t ls, (w.session k').Runs (classVarContainer false) (.var v) t ∧
      ¬ (w.session k').PastVar v ∧ t.PastVar v ∧ (w.session k').Pending ls ∧
      (w.session k').Lays t (ls ++ [.classVarModule v .currentScope (some (.var .self))]) []) ∧
    isTopScope (w.session k') = (.ok true, w.session k') := by
  have hsome : ((Workshop.empty {}).performAll blocksAroundClass).isSome := by decide +kernel
  have hfacts : ∀ w ∈ (Workshop.empty {}).performAll blocksAroundClass,
      (∃ k ∈ w.worker? 0, k.builder.scope = ⟨4⟩) ∧
      (∃ k ∈ w.worker? 1, k.builder.scope = ⟨5⟩ ∧ (classVarContainer false (w.session k)).1.isOk ∧
        (isTopScope (w.session k)).1.toOption = some true) ∧
      (w.registry.lexicalChain ⟨4⟩).toOption.map (·.map (·.kind)) =
        some [.forBody, .closure, .method, .classBody, .scriptBody] ∧
      (w.registry.lexicalChain ⟨5⟩).toOption.map (·.map (·.kind)) = some [.closure, .scriptBody] := by
    decide +kernel
  obtain ⟨w, hw⟩ := Option.isSome_iff_exists.mp hsome
  obtain ⟨⟨k, hk, hscope⟩, ⟨k', hk', hscope', hok, htop⟩, hkinds, hkinds'⟩ := hfacts w hw
  obtain ⟨chain, -, hchain, hheld, -⟩ := classVarContainer_of_run hw hk false
  obtain ⟨chain', -, hchain', -, hunheld, top, htop', -⟩ := classVarContainer_of_run hw hk' false
  rw [hscope] at hchain
  rw [hscope'] at hchain'
  rw [hchain] at hkinds
  rw [hchain'] at hkinds'
  replace hkinds : chain.map (·.kind) = _ := Option.some.inj hkinds
  replace hkinds' : chain'.map (·.kind) = _ := Option.some.inj hkinds'
  refine ⟨w, k, k', hw, hk, hk', ?_, ?_, ?_⟩
  · obtain ⟨a, rest, rfl, ha, hkinds⟩ := List.map_eq_cons_iff.mp hkinds
    obtain ⟨b, rest, rfl, hb, hkinds⟩ := List.map_eq_cons_iff.mp hkinds
    obtain ⟨c, rest, rfl, hc, hkinds⟩ := List.map_eq_cons_iff.mp hkinds
    obtain ⟨x, rest, rfl, hx, -⟩ := List.map_eq_cons_iff.mp hkinds
    have hdecided : DecidedBy (a :: b :: c :: x :: rest) [a, b, c] x :=
      ⟨by rw [hx]; rfl, by simp [ha, hb, hc, ScopeKind.decidesClassVars], rest, rfl⟩
    obtain ⟨depth, hdepth, hnamed⟩ := hheld _ _ hdecided (by rw [hx]; decide)
    exact ⟨depth, hdepth.trans (by simp [staticLevels, ha, hb, hc]), hnamed⟩
  · have hundecided : ∀ inner x, DecidedBy chain' inner x → x.kind = .evalScript := by
      intro inner x h
      have hdecides := h.decides
      have hkind : x.kind ∈ [ScopeKind.closure, .scriptBody] :=
        hkinds' ▸ List.mem_map_of_mem h.mem
      rcases List.mem_pair.mp hkind with hkind | hkind <;> rw [hkind] at hdecides <;> cases hdecides
    rcases hunheld hundecided with ⟨t, ht⟩ | hlays
    · rw [ht] at hok
      cases hok
    · exact hlays
  · rw [htop'] at htop
    obtain rfl := Option.some.inj htop
    exact htop'

end Workshop

end ScopeIR
