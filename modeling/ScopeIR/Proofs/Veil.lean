import Mathlib.Order.Monotone.Basic
import ScopeIR.Proofs.Doings
import ScopeIR.Proofs.Renumbering

/-! Two runs side by side, of which one is traced. A veil says which indices the traced run spends
on variables for modules. Without these indices and the instructions that name the variables, it is
the other run. -/

namespace ScopeIR

section Ranks

variable {taken : ℕ → Prop} {m n k : ℕ}

open Classical in
/-- How many of the smaller numbers are not taken. -/
noncomputable def free (taken : ℕ → Prop) : ℕ → ℕ
  | 0 => 0
  | n + 1 => free taken n + if taken n then 0 else 1

theorem free_succ_of_taken (h : taken n) : free taken (n + 1) = free taken n := by
  rw [free, if_pos h, Nat.add_zero]

theorem free_succ (h : ¬ taken n) : free taken (n + 1) = free taken n + 1 := by
  rw [free, if_neg h]

theorem free_le_succ :
    free taken n ≤ free taken (n + 1) ∧ free taken (n + 1) ≤ free taken n + 1 := by
  by_cases h : taken n
  · rw [free_succ_of_taken h]
    exact ⟨le_rfl, Nat.le_succ _⟩
  · rw [free_succ h]
    exact ⟨Nat.le_succ _, le_rfl⟩

theorem free_mono (h : m ≤ n) : free taken m ≤ free taken n :=
  monotone_nat_of_le_succ (f := free taken) (fun _ => free_le_succ.1) h

theorem free_add_le : free taken (m + k) ≤ free taken m + k := by
  induction k with
  | zero => exact le_rfl
  | succ k ih => exact free_le_succ.2.trans (Nat.succ_le_succ ih)

theorem free_le : free taken n ≤ n := by
  have hle : free taken (0 + n) ≤ _ := free_add_le
  rwa [Nat.zero_add, free, Nat.zero_add] at hle

open Classical in
/-- The place of a number when those that are taken come last. -/
noncomputable def rank (taken : ℕ → Prop) (n : ℕ) : ℕ :=
  if taken n then free taken UInt64.size + (n - free taken n) else free taken n

theorem rank_of_not (h : ¬ taken n) : rank taken n = free taken n := if_neg h

theorem rank_lt (hn : n < UInt64.size) : rank taken n < UInt64.size := by
  unfold rank
  split
  · next h =>
    have hle : free taken (n + 1 + (UInt64.size - (n + 1))) ≤ _ := free_add_le
    rw [Nat.add_sub_cancel' hn, free_succ_of_taken h] at hle
    have hfree : free taken n ≤ n := free_le
    omega
  · exact free_le.trans_lt hn

/-- Ranks tell numbers apart, no matter which of them are taken. -/
theorem rank_lt_or_lt (hn : n < UInt64.size) (hlt : m < n) : rank taken m ≠ rank taken n := by
  have hsteps : ∀ {i j}, i < j → free taken j ≤ free taken (i + 1) + (j - (i + 1)) := by
    intro i j hij
    have hle : free taken (i + 1 + (j - (i + 1))) ≤ _ := free_add_le
    rwa [Nat.add_sub_cancel' hij] at hle
  have hm : free taken m ≤ m := free_le
  unfold rank
  split
  · next h =>
    have hsucc := free_succ_of_taken h
    split
    · have := hsteps hlt
      omega
    · next h' =>
      have hsucc' := free_succ h'
      have hmono : free taken (n + 1) ≤ free taken UInt64.size := free_mono hn
      omega
  · next h =>
    have hsucc := free_succ h
    split
    · have hmono : free taken (m + 1) ≤ free taken UInt64.size := free_mono (by omega)
      omega
    · have hmono : free taken (m + 1) ≤ free taken n := free_mono hlt
      omega

theorem rank_injective : Function.Injective fun i : UInt64 =>
    UInt64.ofNat (rank taken i.toNat) := by
  intro i j h
  have hrank := congrArg UInt64.toNat h
  simp only [UInt64.toNat_ofNat_of_lt' (rank_lt i.toNat_lt_size),
    UInt64.toNat_ofNat_of_lt' (rank_lt j.toNat_lt_size)] at hrank
  rcases Nat.lt_trichotomy i.toNat j.toNat with hlt | heq | hlt
  · exact absurd hrank (rank_lt_or_lt j.toNat_lt_size hlt)
  · exact UInt64.toNat_inj.mp heq
  · exact absurd hrank.symm (rank_lt_or_lt i.toNat_lt_size hlt)

end Ranks

@[simp] theorem Builder.untraced_scope {f : Variable → Variable} (b : Builder) :
    (b.untraced f).scope = b.scope := rfl

/-- No trace, and a line number only if it was given. -/
def Instr.Fine (given : Int32 → Coverage → Prop) : Instr → Prop
  | .tracePoint _ => False
  | .lineNumber line coverage => given line coverage
  | _ => True

/-- Every line number that was not given is directly followed by a trace instruction with the line
after it, and there are no others. -/
inductive Followed (given : Int32 → Coverage → Prop) : List Instr → Prop
  | nil : Followed given []
  | line {line : Int32} {coverage : Coverage} {point : TracePoint} {rest : List Instr} :
    point.event = .line → nextLine line = some point.line → Followed given rest →
      Followed given (.lineNumber line coverage :: .tracePoint point :: rest)
  | other {i : Instr} {rest : List Instr} : i.Fine given → Followed given rest →
    Followed given (i :: rest)

theorem Followed.append {given : Int32 → Coverage → Prop} {list rest : List Instr}
    (h : Followed given list) (h' : Followed given rest) : Followed given (list ++ rest) := by
  induction h with
  | nil => exact h'
  | line hevent hline _ ih => exact .line hevent hline ih
  | other hi _ ih => exact .other hi ih

/-- What is known of a traced run. -/
structure Veil where
  /-- The indices that went to variables for modules. -/
  taken : ScopeId → ℕ → Prop
  /-- The scope that carries the closure id. -/
  home : UInt64 → ScopeId
  /-- The counter that the plain temporaries of a scope's instructions come from. -/
  counter : ScopeId → ScopeId
  /-- Line numbers that callers write themselves. -/
  given : Int32 → Coverage → Prop

namespace Registry

variable {g g' g'' : Registry} {id : ScopeId} {x y : Scope}

/-- A trace instruction of the scope names a variable for the module with this index. -/
def Traced (g : Registry) (id : ScopeId) (m : ℕ) : Prop :=
  ∃ index point i, ⟨id, .tracePoint point, index⟩ ∈ g.heard ∧
    point.module = .temp (.currentModule i) ∧ i.toNat = m

theorem traced_of_heard {m : ℕ} (h : g'.heard = g.heard) : g'.Traced id m ↔ g.Traced id m := by
  unfold Traced
  rw [h]

theorem traced_push {e : Event} {m : ℕ}
    (he : ∀ id index point, e ≠ .instrAdded id index (.tracePoint point)) :
    Traced { g with journal := g.journal.push e } id m ↔ g.Traced id m := by
  have hheard := heard_of_record (u := ()) (runs_record (g := g) (e := e).mpr rfl)
  unfold Traced
  constructor
  · rintro ⟨index, point, i, hmem, hpoint⟩
    rw [hheard] at hmem
    rcases List.mem_append.mp hmem with hmem | heq
    · exact ⟨index, point, i, hmem, hpoint⟩
    · cases e with
      | instrAdded =>
        obtain ⟨⟩ := Option.mem_toList.mp heq
        exact absurd rfl (he _ _ _)
      | _ => cases heq
  · rintro ⟨index, point, i, hmem, hpoint⟩
    exact ⟨index, point, i, hheard ▸ List.mem_append_left _ hmem, hpoint⟩

/-- No more temporaries can be taken from some scope. -/
def Spent (g : Registry) : Prop :=
  ∃ id x, g.scope? id = some x ∧ x.nextTemp.toNat + 1 = UInt64.size

/-- `g'` is `g` at a later time. What is traced in between is traced by new variables. -/
structure Unfolds (g g' : Registry) : Prop where
  config : g'.config = g.config
  advances : g.Advances False g'
  kept {id : ScopeId} {m : ℕ} : g.Traced id m → g'.Traced id m
  traced {id : ScopeId} {m : ℕ} : g'.Traced id m → g.Traced id m ∨ g.temps id ≤ m

theorem Advances.temps_le (h : g.Advances False g') (id : ScopeId) : g.temps id ≤ g'.temps id := by
  unfold temps
  cases hx : g.scope? id with
  | none => exact Nat.zero_le _
  | some x =>
    obtain ⟨y, hy, hxy⟩ := h.later hx
    rw [hy]
    exact hxy.temps

namespace Unfolds

theorem refl (g : Registry) : g.Unfolds g := ⟨rfl, .refl, fun h => h, .inl⟩

theorem trans (h : g.Unfolds g') (h' : g'.Unfolds g'') : g.Unfolds g'' where
  config := h'.config.trans h.config
  advances := h.advances.trans h'.advances
  kept hm := h'.kept (h.kept hm)
  traced hm := by
    rcases h'.traced hm with hm | hle
    · exact h.traced hm
    · exact .inr ((h.advances.temps_le _).trans hle)

end Unfolds

theorem Change.config_eq {kept : Prop} (h : g.Change kept g') : g'.config = g.config := by
  cases h with
  | serves h => exact h.serves.config
  | record => rfl
  | newScope h => exact (runs_newScope h).1.config
  | insertFlags h =>
    obtain ⟨x, -, -, rfl⟩ := eq_of_insertFlags h
    rfl
  | setRefined h =>
    obtain ⟨x, -, rfl⟩ := runs_updateScope.mp h
    rfl

theorem Unfolds.change (h : g.Change False g')
    (htraced : ∀ {id m}, g'.Traced id m ↔ g.Traced id m) : g.Unfolds g' where
  config := h.config_eq
  advances := .single (.changes h)
  kept := htraced.mpr
  traced hm := .inl (htraced.mp hm)

theorem scope_apply (g : Registry) (id : ScopeId) : RegistryM.scope id g =
    match g.scope? id with
    | some x => .ok (x, g)
    | none => .error (.noScope id) := by
  cases hx : g.scope? id with
  | some x => exact runs_scope.mpr ⟨hx, rfl⟩
  | none =>
    have hscope : g.scope id = .error (.noScope id) := by
      unfold scope? at hx
      rw [scope, hx]
    have hbind : RegistryM.scope id g = (liftM (g.scope id) : RegistryM Scope) g := rfl
    rw [hbind, hscope]
    rfl

theorem updateScope_apply (g : Registry) (id : ScopeId) (f : Scope → Scope) :
    RegistryM.updateScope id f g =
      match g.scope? id with
      | some x => .ok ((), g.setScope id (f x))
      | none => .error (.noScope id) := by
  simp only [RegistryM.updateScope, bind, StateT.bind, Except.bind, scope_apply]
  cases g.scope? id <;> rfl

theorem nextTemp_apply (g : Registry) (id : ScopeId) :
    RegistryM.nextTemp id g =
      match g.scope? id with
      | some x =>
        match checkedAdd x.nextTemp 1 with
        | some next => .ok (x.nextTemp, g.setScope id { x with nextTemp := next })
        | none => .error .overflow
      | none => .error (.noScope id) := by
  simp only [RegistryM.nextTemp, bind, StateT.bind, Except.bind, scope_apply]
  cases hx : g.scope? id with
  | none => rfl
  | some x =>
    dsimp only
    cases checkedAdd x.nextTemp 1 with
    | none => rfl
    | some next =>
      have hlift : (liftM (orOverflow (some next)) : RegistryM UInt64) g = .ok (next, g) := rfl
      simp only [hlift, updateScope_apply, hx]
      rfl

end Registry

namespace Veil

variable {α β γ δ : Type} {V : Veil} {c : ScopeId} {g g' : Registry} {s s' t t' u : Session}

/-- The traced run's temporaries under the names that they have in the other run. -/
noncomputable def renumbering (V : Veil) : Renumbering where
  plain counter i := UInt64.ofNat (rank (V.taken counter) i.toNat)
  closure k i := UInt64.ofNat (rank (V.taken (V.home k)) i.toNat)
  plain_injective _ := rank_injective
  closure_injective _ := rank_injective

noncomputable abbrev var (V : Veil) (c : ScopeId) : Variable → Variable := V.renumbering.var c

/-- What a counter shows in the other run. -/
noncomputable def count (V : Veil) (id : ScopeId) (i : UInt64) : UInt64 :=
  UInt64.ofNat (free (V.taken id) i.toNat)

noncomputable def scope (V : Veil) (x : Scope) : Scope :=
  { x with
    nextTemp := V.count x.id x.nextTemp
    instrs := x.instrs.map (untraced (V.var (V.counter x.id))) }

/-- The veil is right about all that has happened so far. -/
structure Complies (V : Veil) (g : Registry) : Prop where
  taken {id : ScopeId} {m : ℕ} : m < g.temps id → (V.taken id m ↔ g.Traced id m)
  home {id : ScopeId} {x : Scope} {k : UInt64} : g.scope? id = some x → x.closureId = some k →
    V.home k = id

theorem Complies.of_unfolds (hg' : V.Complies g') (h : g.Unfolds g') : V.Complies g where
  taken {id m} hm := by
    refine (hg'.taken (hm.trans_le (h.advances.temps_le id))).trans ⟨fun htraced => ?_, h.kept⟩
    rcases h.traced htraced with htraced | hle
    · exact htraced
    · exact absurd hm (Nat.not_lt.mpr hle)
  home {id x k} hx hk := by
    obtain ⟨y, hy, hxy⟩ := h.advances.later hx
    exact hg'.home hy (hxy.closureId.trans hk)

/-- The second registry is the first one without traces. What the journals say need not agree. -/
structure Covers (V : Veil) (g g' : Registry) : Prop where
  config : g'.config = { g.config with fullTrace := false }
  nextClosureId : g'.nextClosureId = g.nextClosureId
  size : g'.scopes.size = g.scopes.size
  scope (id : ScopeId) : g'.scope? id = (g.scope? id).map V.scope

/-- A registry that a traced run leads to. -/
structure Grounded (V : Veil) (g : Registry) : Prop where
  traces : g.config.fullTrace = true
  arranged : g.Arranged
  bounded {id : ScopeId} {m : ℕ} : g.Traced id m → m < g.temps id
  stored {id : ScopeId} {x : Scope} {list : List Instr} : g.scope? id = some x →
    x.instrs = some list → Followed V.given list

/-- What a builder that traces relies on. -/
structure Neat (V : Veil) (s : Session) : Prop where
  grounded : V.Grounded s.registry
  scope : s.registry.Has s.builder.scope
  pending {line : Int32} : s.builder.line.pending = some line → line ≠ Int32.maxValue
  module {v : Variable} : s.builder.currentModule = some v →
    ∃ i, v = .temp (.currentModule i) ∧ s.registry.Traced s.builder.scope i.toNat
  list : Followed V.given s.builder.instrs.toList
  holds : s.builder.Holds (·.Fine V.given)

theorem Neat.chain (hs : V.Neat s) :
    ∃ chain, s.registry.lexicalChain s.builder.scope = .ok chain := by
  obtain ⟨chain, -, hchain⟩ := hs.grounded.arranged.walk hs.scope
  exact ⟨chain, hchain⟩

/-- The second session is the first one without traces. The plain temporaries that the builder at
work names come from the counter, and so do those that it takes. -/
structure Untraces (V : Veil) (c : ScopeId) (s s' : Session) : Prop where
  registry : V.Covers s.registry s'.registry
  builder : s'.builder = s.builder.untraced (V.var c)
  outer : s'.outer = s.outer.map fun b => b.untraced (V.var (V.counter b.scope))
  counter : V.counter s.builder.scope = c
  owner {x : Scope} : s.registry.scope? s.tempScope = some x →
    (x.kind = .closure ∧ x.closureId.isSome) ∨ s.tempScope = c

/-- What the builder at work leaves behind in the traced run. -/
structure Extends (s t : Session) : Prop where
  registry : s.registry.Unfolds t.registry
  size : t.registry.scopes.size = s.registry.scopes.size
  scope : t.builder.scope = s.builder.scope
  borrowsTemps : t.builder.borrowsTemps = s.builder.borrowsTemps
  outer : t.outer = s.outer

namespace Extends

theorem refl (s : Session) : Extends s s := ⟨.refl _, rfl, rfl, rfl, rfl⟩

theorem trans (h : Extends s t) (h' : Extends t u) : Extends s u where
  registry := h.registry.trans h'.registry
  size := h'.size.trans h.size
  scope := h'.scope.trans h.scope
  borrowsTemps := h'.borrowsTemps.trans h.borrowsTemps
  outer := h'.outer.trans h.outer

theorem tempScope (h : Extends s t) : t.tempScope = s.tempScope := by
  unfold Session.tempScope
  rw [h.outer]
  cases s.outer with
  | nil => exact h.scope
  | cons p outer =>
    simp only [Builder.tempOwner, h.borrowsTemps]
    split
    · rfl
    · exact h.scope

end Extends

/-- Where temporaries come from does not change. -/
theorem Untraces.extends (h : V.Untraces c s s') (hext : Extends s t)
    (hcovers : V.Covers t.registry t'.registry)
    (hbuilder : t'.builder = t.builder.untraced (V.var c)) (houter : t'.outer = s'.outer) :
    V.Untraces c t t' where
  registry := hcovers
  builder := hbuilder
  outer := by rw [houter, hext.outer, h.outer]
  counter := by rw [hext.scope, h.counter]
  owner {y} hy := by
    rw [hext.tempScope] at hy ⊢
    have hhas : s.registry.Has s.tempScope := by
      have hlt : t.registry.Has s.tempScope := .of_scope? hy
      rwa [Registry.Has, hext.size] at hlt
    obtain ⟨x, hx⟩ := Registry.has_iff.mp hhas
    obtain ⟨z, hz, hxz⟩ := hext.registry.advances.later hx
    obtain rfl := Option.some.inj (hz.symm.trans hy)
    rw [hxz.kind, hxz.closureId]
    exact h.owner hx

/-- How the two runs end: alike, unless there are no more temporaries for the traced one. -/
inductive Mirrors (V : Veil) (c : ScopeId) (φ : α → β) :
    Except Fault α × Session → Except Fault β × Session → Prop
  | ok {a : α} {t t' : Session} : V.Untraces c t t' → Mirrors V c φ (.ok a, t) (.ok (φ a), t')
  | error {e : Fault} {t t' : Session} : V.Untraces c t t' →
    Mirrors V c φ (.error e, t) (.error (e.mapVars (V.var c)), t')
  | spent {t : Session} {r : Except Fault β × Session} : t.registry.Spent →
    Mirrors V c φ (.error .overflow, t) r

/-- What the traced run leads to. Only when it runs out of temporaries may a trace be missing. -/
structure Leads (V : Veil) (s : Session) (r : Except Fault α × Session) : Prop where
  later : Extends s r.2
  neat : r.1 ≠ .error .overflow → V.Neat r.2

/-- The veil hides that the first action is traced and the second one is not. -/
structure Hides (V : Veil) (c : ScopeId) (s s' : Session) (x : SessionM α) (x' : SessionM β)
    (φ : α → β) : Prop where
  leads : V.Neat s → V.Leads s (x s)
  mirrors : V.Neat s → V.Untraces c s s' → V.Complies (x s).2.registry →
    V.Mirrors c φ (x s) (x' s')

section Rules

variable {φ : α → β} {ψ : γ → δ}

theorem leads_refl {r : Except Fault α} (hs : V.Neat s) : V.Leads s (r, s) :=
  ⟨.refl s, fun _ => hs⟩

theorem leads_bind {x : SessionM α} {f : α → SessionM γ} (hx : V.Leads s (x s))
    (hf : ∀ {a t}, s.Runs x a t → V.Neat t → V.Leads t (f a t)) : V.Leads s ((x >>= f) s) := by
  rw [Session.bind_apply]
  rcases hr : x s with ⟨e | a, t⟩
  · rw [hr] at hx
    exact ⟨hx.later, fun he => hx.neat fun h => he (congrArg Except.error (Except.error.inj h))⟩
  · rw [hr] at hx
    have ht := hf hr (hx.neat nofun)
    exact ⟨hx.later.trans ht.later, ht.neat⟩

theorem hides_bind {x : SessionM α} {x' : SessionM β} {f : α → SessionM γ} {f' : β → SessionM δ}
    (hx : V.Hides c s s' x x' φ)
    (hf : ∀ {a t u}, s.Runs x a t → V.Hides c t u (f a) (f' (φ a)) ψ) :
    V.Hides c s s' (x >>= f) (x' >>= f') ψ := by
  refine ⟨fun hs => leads_bind (hx.leads hs) fun hr ht => (hf (u := s') hr).leads ht, ?_⟩
  intro hs hss' hcomplies
  have hleads := hx.leads hs
  have hmirrors := hx.mirrors hs hss'
  rw [Session.bind_apply] at hcomplies ⊢
  rw [Session.bind_apply]
  rcases hr : x s with ⟨e | a, t⟩
  · rw [hr] at hcomplies hmirrors
    have hmirrors := hmirrors hcomplies
    generalize x' s' = outcome at hmirrors ⊢
    cases hmirrors with
    | error h => exact .error h
    | spent h => exact .spent h
  · rw [hr] at hcomplies hmirrors hleads
    have ht := hleads.neat nofun
    have hlater := ((hf (u := s') hr).leads ht).later.registry
    have hmirrors := hmirrors (hcomplies.of_unfolds hlater)
    generalize x' s' = outcome at hmirrors ⊢
    cases hmirrors with
    | ok h => exact (hf hr).mirrors ht h hcomplies

theorem hides_pure {a : α} {b : β} (h : φ a = b) : V.Hides c s s' (pure a) (pure b) φ :=
  ⟨leads_refl, fun _ hss' _ => h ▸ .ok hss'⟩

theorem hides_throw {e e' : Fault} (h : e.mapVars (V.var c) = e') :
    V.Hides c s s' (throw e : SessionM α) (throw e' : SessionM β) φ :=
  ⟨leads_refl, fun _ hss' _ => h ▸ .error hss'⟩

/-- What is known of the traced session may be used. -/
theorem hides_of_neat {x : SessionM α} {x' : SessionM β} (h : V.Neat s → V.Hides c s s' x x' φ) :
    V.Hides c s s' x x' φ := ⟨fun hs => (h hs).leads hs, fun hs => (h hs).mirrors hs⟩

theorem hides_get_bind {f : Session → SessionM γ} {f' : Session → SessionM δ}
    (h : V.Hides c s s' (f s) (f' s') ψ) : V.Hides c s s' (get >>= f) (get >>= f') ψ :=
  ⟨h.leads, h.mirrors⟩

theorem hides_current_bind {f : Builder → SessionM γ} {f' : Builder → SessionM δ}
    (h : V.Hides c s s' (f s.builder) (f' (s.builder.untraced (V.var c))) ψ) :
    V.Hides c s s' (Session.current >>= f) (Session.current >>= f') ψ := by
  refine ⟨h.leads, fun hs hss' hcomplies => ?_⟩
  have hmirrors := h.mirrors hs hss' hcomplies
  rw [← hss'.builder] at hmirrors
  exact hmirrors

/-- Both lookups find the same, or they fail alike. -/
def Finds (V : Veil) (c : ScopeId) (φ : α → β) (x : Except Fault α) (x' : Except Fault β) : Prop :=
  (∃ a, x = .ok a ∧ x' = .ok (φ a)) ∨ ∃ e, x = .error e ∧ x' = .error (e.mapVars (V.var c))

theorem hides_finds_bind {x : Except Fault α} {x' : Except Fault β} {f : α → SessionM γ}
    {f' : β → SessionM δ} (h : V.Untraces c s s' → V.Finds c φ x x')
    (hf : ∀ a, V.Hides c s s' (f a) (f' (φ a)) ψ) :
    V.Hides c s s' (liftM x >>= f) (liftM x' >>= f') ψ := by
  constructor
  · intro hs
    cases x with
    | ok a => exact (hf a).leads hs
    | error e => exact leads_refl hs
  · intro hs hss' hcomplies
    rcases h hss' with ⟨a, rfl, rfl⟩ | ⟨e, rfl, rfl⟩
    · exact (hf a).mirrors hs hss' hcomplies
    · exact .error hss'

theorem hides_finds {x : Except Fault α} {x' : Except Fault β}
    (h : V.Untraces c s s' → V.Finds c φ x x') : V.Hides c s s' (liftM x) (liftM x') φ := by
  rw [← bind_pure (liftM x), ← bind_pure (liftM x')]
  exact hides_finds_bind h fun _ => hides_pure rfl

end Rules

section Registries

variable {φ : α → β} {x y : Scope} {id : ScopeId}

theorem Covers.finds_scope (h : V.Covers g g') : V.Finds c V.scope (g.scope id) (g'.scope id) := by
  have hx' := h.scope id
  unfold Registry.scope
  unfold Registry.scope? at hx'
  rw [hx']
  cases g.scopes[id.index.toNat]? with
  | some x => exact .inl ⟨x, rfl, rfl⟩
  | none => exact .inr ⟨_, rfl, rfl⟩

theorem Covers.setScope (h : V.Covers g g') (hx : g.scope? id = some x) :
    V.Covers (g.setScope id y) (g'.setScope id (V.scope y)) where
  config := h.config
  nextClosureId := h.nextClosureId
  size := by
    simp only [Registry.setScope, Array.size_setIfInBounds]
    exact h.size
  scope id' := by
    by_cases hid : id' = id
    · subst hid
      have hx' : g'.scope? id' = some (V.scope x) := by rw [h.scope, hx, Option.map_some]
      rw [Registry.scope?_setScope_self hx, Registry.scope?_setScope_self hx', Option.map_some]
    · rw [Registry.scope?_setScope_ne hid, Registry.scope?_setScope_ne hid, h.scope]

theorem Covers.record {e e' : Event} (h : V.Covers g g') :
    V.Covers { g with journal := g.journal.push e } { g' with journal := g'.journal.push e' } :=
  ⟨h.config, h.nextClosureId, h.size, h.scope⟩

/-- The two changes do the same to both registries, or they fail alike. -/
def Echoes (V : Veil) (φ : α → β) (x : RegistryM α) (x' : RegistryM β) (g g' : Registry) : Prop :=
  (∃ a h h', x g = .ok (a, h) ∧ x' g' = .ok (φ a, h') ∧ V.Covers h h') ∨
    ∃ e, x g = .error e ∧ x' g' = .error e ∧ ∀ cause, e ≠ .error cause

theorem echoes_bind {x : RegistryM α} {x' : RegistryM β} {f : α → RegistryM γ}
    {f' : β → RegistryM δ} {ψ : γ → δ} (hx : V.Echoes φ x x' g g')
    (hf : ∀ {a h h'}, g.Runs x a h → V.Covers h h' → V.Echoes ψ (f a) (f' (φ a)) h h') :
    V.Echoes ψ (x >>= f) (x' >>= f') g g' := by
  rcases hx with ⟨a, h, h', hr, hr', hcovers⟩ | ⟨e, hr, hr', he⟩
  · have hrest := hf hr hcovers
    simp only [Echoes, bind, StateT.bind, Except.bind, hr, hr']
    exact hrest
  · refine .inr ⟨e, ?_, ?_, he⟩ <;> simp only [bind, StateT.bind, Except.bind, hr, hr']

theorem echoes_pure {a : α} {b : β} (hg : V.Covers g g') (h : φ a = b) :
    V.Echoes φ (pure a) (pure b) g g' := .inl ⟨a, g, g', rfl, h ▸ rfl, hg⟩

theorem echoes_throw {e : Fault} (he : ∀ cause, e ≠ .error cause) :
    V.Echoes φ (throw e) (throw e) g g' := .inr ⟨e, rfl, rfl, he⟩

theorem echoes_orOverflow {x : Option α} (hg : V.Covers g g') :
    V.Echoes (fun a => a) (liftM (orOverflow x)) (liftM (orOverflow x)) g g' := by
  cases x with
  | none => exact .inr ⟨.overflow, rfl, rfl, nofun⟩
  | some a => exact .inl ⟨a, g, g', rfl, rfl, hg⟩

theorem echoes_record {e e' : Event} (hg : V.Covers g g') :
    V.Echoes (fun v => v) (RegistryM.record e) (RegistryM.record e') g g' :=
  .inl ⟨(), _, _, rfl, rfl, hg.record⟩

theorem echoes_scope (hg : V.Covers g g') :
    V.Echoes V.scope (RegistryM.scope id) (RegistryM.scope id) g g' := by
  unfold Echoes
  rw [Registry.scope_apply, Registry.scope_apply, hg.scope]
  cases g.scope? id with
  | none => exact .inr ⟨_, rfl, rfl, nofun⟩
  | some x => exact .inl ⟨x, g, g', rfl, rfl, hg⟩

theorem echoes_updateScope {f : Scope → Scope} (hg : V.Covers g g')
    (hf : ∀ x, f (V.scope x) = V.scope (f x)) :
    V.Echoes (fun v => v) (RegistryM.updateScope id f) (RegistryM.updateScope id f) g g' := by
  unfold Echoes
  rw [Registry.updateScope_apply, Registry.updateScope_apply, hg.scope]
  cases hx : g.scope? id with
  | none => exact .inr ⟨_, rfl, rfl, nofun⟩
  | some x => exact .inl ⟨(), _, _, rfl, rfl, hf x ▸ hg.setScope hx⟩

theorem echoes_newLabel {stem : String} (hg : V.Covers g g') :
    V.Echoes (fun l => l) (RegistryM.newLabel id stem) (RegistryM.newLabel id stem) g g' :=
  echoes_bind (echoes_scope hg) fun _ hg => echoes_bind (echoes_orOverflow hg) fun _ hg =>
    echoes_bind (echoes_updateScope hg fun _ => rfl) fun _ hg => echoes_pure hg rfl

theorem echoes_addClosure {closure : ScopeId} (hg : V.Covers g g') :
    V.Echoes (fun v => v) (RegistryM.addClosure id closure) (RegistryM.addClosure id closure) g
      g' := by
  refine echoes_updateScope hg fun x => ?_
  by_cases hmem : closure ∈ x.closures
  · rw [if_pos hmem]
    exact if_pos hmem
  · rw [if_neg hmem]
    exact if_neg hmem

theorem Grounded.change (hg : V.Grounded g) (h : g.Change False g')
    (htraced : ∀ {id m}, g'.Traced id m ↔ g.Traced id m) : V.Grounded g' where
  traces := h.config_eq ▸ hg.traces
  arranged := hg.arranged.advance (.changes h)
  bounded hm := by
    have hadvances : g.Advances False g' := .single (.changes h)
    exact (hg.bounded (htraced.mp hm)).trans_le (hadvances.temps_le _)
  stored hy hi := by
    rcases h.instrs hy with hnone | ⟨x, hx, hxy⟩
    · rw [hnone] at hi
      cases hi
    · exact hg.stored hx (hxy ▸ hi)

theorem Neat.later (hs : V.Neat s) (h : s.registry.Unfolds g) (hg : V.Grounded g) :
    V.Neat { s with registry := g } where
  grounded := hg
  scope := h.advances.has hs.scope
  pending := hs.pending
  module hv := by
    obtain ⟨i, rfl, hi⟩ := hs.module hv
    exact ⟨i, rfl, h.kept hi⟩
  list := hs.list
  holds := hs.holds

/-- A change of the registry that no trace is part of. -/
theorem leads_change {r : Except Fault α} (hs : V.Neat s) (hchange : s.registry.Change False g)
    (hsize : g.scopes.size = s.registry.scopes.size)
    (htraced : ∀ {id m}, g.Traced id m ↔ s.registry.Traced id m) :
    V.Leads s (r, { s with registry := g }) := by
  have hunfolds := Registry.Unfolds.change hchange htraced
  exact ⟨⟨hunfolds, hsize, rfl, rfl, rfl⟩,
    fun _ => hs.later hunfolds (hs.grounded.change hchange htraced)⟩

theorem leads_service {r : Except Fault α} (hs : V.Neat s) (h : s.registry.Service False g) :
    V.Leads s (r, { s with registry := g }) :=
  leads_change hs (.serves h) h.serves.size_eq (Registry.traced_of_heard h.heard)

/-- The registry serves both runs. -/
theorem hides_liftM {x : RegistryM α} {x' : RegistryM β}
    (hserves : ∀ {a g}, s.registry.Runs x a g → s.registry.Service False g)
    (hechoes : V.Covers s.registry s'.registry → V.Echoes φ x x' s.registry s'.registry) :
    V.Hides c s s' (liftM x) (liftM x') φ := by
  constructor
  · intro hs
    rw [Session.liftM_apply]
    rcases hr : x s.registry with e | ⟨a, g⟩
    · exact leads_refl hs
    · exact leads_service hs (hserves hr)
  · intro hs hss' _
    rw [Session.liftM_apply, Session.liftM_apply]
    rcases hechoes hss'.registry with ⟨a, g, g', hr, hr', hg⟩ | ⟨e, hr, hr', he⟩
    · rw [hr, hr']
      have hleads := leads_service (r := .ok a) hs (hserves hr)
      exact .ok (hss'.extends hleads.later hg hss'.builder rfl)
    · rw [hr, hr']
      have hsame : e.mapVars (V.var c) = e := by
        cases e with
        | error cause => exact absurd rfl (he cause)
        | _ => rfl
      have hmirrors := Mirrors.error (e := e) (φ := φ) hss'
      rw [hsame] at hmirrors
      exact hmirrors

theorem hides_scope : V.Hides c s s' (liftM (RegistryM.scope id)) (liftM (RegistryM.scope id))
    V.scope := by
  constructor
  · intro hs
    rw [Session.liftM_apply, Registry.scope_apply]
    cases s.registry.scope? id <;> exact leads_refl hs
  · intro hs hss' _
    simp only [Session.liftM_apply, Registry.scope_apply, hss'.registry.scope]
    cases s.registry.scope? id with
    | none => exact .error hss'
    | some x => exact .ok hss'

theorem hides_ownScope : V.Hides c s s' Session.ownScope Session.ownScope V.scope :=
  hides_current_bind hides_scope

theorem hides_newLabelNamed {stem : String} : V.Hides c s s' (Session.newLabelNamed stem)
    (Session.newLabelNamed stem) fun l => l :=
  hides_current_bind (hides_liftM .newLabel echoes_newLabel)

theorem hides_record {e e' : Event} (he : e.isQuiet) :
    V.Hides c s s' (liftM (RegistryM.record e)) (liftM (RegistryM.record e')) fun v => v := by
  refine hides_liftM (fun hr => ?_) echoes_record
  obtain rfl := Registry.runs_record.mp hr
  exact .record he

theorem hides_addClosure {closure : ScopeId} :
    V.Hides c s s' (Session.addClosure closure) (Session.addClosure closure) fun v => v :=
  hides_current_bind (hides_liftM (.addClosure False.elim) echoes_addClosure)

end Registries

section Builders

variable {i : Instr}

/-- A change of the builder that does not concern its list. -/
theorem hides_updateBuilder {f f' : Builder → Builder}
    (hscope : (f s.builder).scope = s.builder.scope)
    (hborrows : (f s.builder).borrowsTemps = s.builder.borrowsTemps)
    (hlist : (f s.builder).instrs = s.builder.instrs)
    (hline : ∀ {line}, (f s.builder).line.pending = some line →
      s.builder.line.pending = some line ∨ line ≠ Int32.maxValue)
    (hmodule : (f s.builder).currentModule = s.builder.currentModule)
    (hholds : s.builder.Holds (·.Fine V.given) → (f s.builder).Holds (·.Fine V.given))
    (hf : f' (s.builder.untraced (V.var c)) = (f s.builder).untraced (V.var c)) :
    V.Hides c s s' (Session.updateBuilder f) (Session.updateBuilder f') fun v => v := by
  have hext : Extends s { s with builder := f s.builder } := ⟨.refl _, rfl, hscope, hborrows, rfl⟩
  constructor
  · intro hs
    refine ⟨hext, fun _ => ⟨hs.grounded, ?_, ?_, fun hv => ?_, ?_, hholds hs.holds⟩⟩
    · exact (congrArg s.registry.Has hscope).mpr hs.scope
    · intro line h
      exact (hline h).elim hs.pending id
    · obtain ⟨i, rfl, hi⟩ := hs.module (hmodule ▸ hv)
      exact ⟨i, rfl, hscope ▸ hi⟩
    · exact (congrArg Array.toList hlist) ▸ hs.list
  · intro hs hss' _
    refine .ok (hss'.extends hext hss'.registry ?_ rfl)
    change f' s'.builder = _
    rw [hss'.builder]
    exact hf

/-- What is neither a trace nor a line number joins both lists. -/
theorem leads_join {b : Builder} {n : ℕ} {r : Except Fault α} (hi : i.Fine V.given)
    (hs : V.Neat s) (hb : b = s.builder.append i ∨ b = s.builder.prepend i) :
    V.Leads s (r, s.announce n i b) := by
  obtain ⟨hlater, hneat⟩ := leads_change (r := .ok ()) hs
    (.record (e := .instrAdded s.builder.scope n i)) rfl (Registry.traced_push fun _ _ _ he => by
      obtain ⟨-, -, rfl⟩ := Event.instrAdded.inj he
      exact hi)
  have hneat := hneat nofun
  rcases hb with rfl | rfl
  · refine ⟨⟨hlater.registry, rfl, rfl, rfl, rfl⟩, fun _ => ⟨hneat.grounded, hneat.scope,
      hneat.pending, hneat.module, ?_, hneat.holds⟩⟩
    simp only [Session.announce, Builder.append, Array.toList_push]
    exact hs.list.append (.other hi .nil)
  · refine ⟨⟨hlater.registry, rfl, rfl, rfl, rfl⟩, fun _ => ⟨hneat.grounded, hneat.scope,
      hneat.pending, hneat.module, ?_, hneat.holds⟩⟩
    simp only [Session.announce, Builder.prepend, Array.toList_append]
    exact .other hi hs.list

theorem untraced_prepend {f : Variable → Variable} {b : Builder} (hi : i.isTrace = false) :
    (b.prepend i).untraced f = (b.untraced f).prepend (i.mapVars f) := by
  simp only [Builder.prepend, Builder.untraced, Array.toList_append, untraced_append,
    untraced_kept hi, Instr.scopeFlags_mapVars, ← List.append_toArray]

theorem untraced_pushed {f : Variable → Variable} {b : Builder} (hi : i.isTrace = false) :
    (b.append i).untraced f = (b.untraced f).append (i.mapVars f) := by
  simp only [Builder.append, Builder.untraced, Array.toList_push, untraced_append,
    untraced_kept hi, Instr.scopeFlags_mapVars, List.push_toArray]

theorem isTrace_of_fine (hi : i.Fine V.given) : i.isTrace = false := by
  cases i <;> first | rfl | exact hi.elim

theorem mirrors_join {b : Builder} {m n : ℕ} (hi : i.Fine V.given) (hs : V.Neat s)
    (hss' : V.Untraces c s s') (hb : b = s.builder.append i ∨ b = s.builder.prepend i) :
    V.Untraces c (s.announce n i b)
      (s'.announce m (i.mapVars (V.var c)) (b.untraced (V.var c))) :=
  hss'.extends (leads_join (r := .ok ()) hi hs hb).later hss'.registry.record rfl rfl

theorem hides_append (hi : i.Fine V.given) :
    V.Hides c s s' (Session.append i) (Session.append (i.mapVars (V.var c))) fun v => v := by
  refine ⟨fun hs => leads_join hi hs (.inl rfl), fun hs hss' _ => ?_⟩
  have h := mirrors_join (m := s'.builder.instrs.size) (n := s.builder.instrs.size) hi hs
    hss' (.inl rfl)
  rw [untraced_pushed (isTrace_of_fine hi), ← hss'.builder] at h
  exact .ok h

theorem hides_prepend (hi : i.Fine V.given) :
    V.Hides c s s' (Session.prepend i) (Session.prepend (i.mapVars (V.var c))) fun v => v := by
  refine ⟨fun hs => leads_join hi hs (.inr rfl), fun hs hss' _ => ?_⟩
  have h := mirrors_join (m := 0) (n := 0) hi hs hss' (.inr rfl)
  rw [untraced_prepend (isTrace_of_fine hi), ← hss'.builder] at h
  exact .ok h

end Builders

end Veil

end ScopeIR
