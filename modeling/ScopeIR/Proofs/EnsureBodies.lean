import ScopeIR.Proofs.Redirection
import ScopeIR.Proofs.Steps

/-! What a scope gets from the time when its builder enters an ensure body to the time when it leaves
that body, whatever is done in between. -/

namespace ScopeIR

/-- What the listener has heard of the scope. -/
def Registry.heardOf (g : Registry) (id : ScopeId) : List Notice := g.heard.filter (·.scope = id)

/-- Notices of other scopes do not count. -/
theorem Registry.heardOf_of_append {g g' : Registry} {ns : List Notice} {id : ScopeId}
    (h : g'.heard = g.heard ++ ns) (hns : ∀ n ∈ ns, n.scope ≠ id) :
    g'.heardOf id = g.heardOf id := by
  have hnone : ns.filter (·.scope = id) = [] := by
    apply List.filter_eq_nil_iff.mpr
    intro n hn
    rw [decide_eq_true_eq]
    exact hns n hn
  rw [heardOf, h, List.filter_append, hnone, List.append_nil, heardOf]

theorem Session.Notifies.heardOf {s t : Session} (h : s.Notifies t) {id : ScopeId}
    (hid : s.builder.scope ≠ id) : t.registry.heardOf id = s.registry.heardOf id := by
  obtain ⟨ns, hns, hscope⟩ := h.heard
  exact Registry.heardOf_of_append hns fun n hn => hscope n hn ▸ hid

namespace Workshop

open Session

variable {w w' w'' : Workshop} {place : Nat} {k k' : Worker} {op : Op} {ops : List Op}

/-- Before some step of the run, `P` holds. -/
def sometime (P : Workshop → Op → Bool) : Workshop → List Op → Bool
  | _, [] => false
  | w, op :: ops => P w op ||
    match w.step op with
    | none => false
    | some w' => sometime P w' ops

/-- The builder at the place does what `P` says. -/
def does (P : Session → Act → Bool) (place : Nat) (w : Workshop) : Op → Bool
  | .act p a => p = place && (w.worker? p).any fun k => P (w.session k) a
  | _ => false

/-- The builder at the place works in more than `n` ensure bodies and goes on after the operation,
which no other builder of the scope does. -/
def inside (place n : Nat) (scope : ScopeId) (w : Workshop) (op : Op) : Bool :=
  (w.worker? place).any (n < ·.builder.ensureBodies.length) &&
  match op with
  | .act p _ => p = place || (w.worker? p).all (·.builder.scope ≠ scope)
  | .finish p => p ≠ place && (w.worker? p).all (·.builder.scope ≠ scope)
  | .drop p => p ≠ place
  | _ => true

/-- Between two times the scope gets these flags, and these instructions in front of its list, of
which the listener hears. -/
structure Gets (w : Workshop) (b : Builder) (gained : ScopeFlags) (front : List Instr)
    (w' : Workshop) (b' : Builder) : Prop where
  scope : b'.scope = b.scope
  start : b.closureStart.isSome → b'.closureStart.isSome
  flags : b'.flags = b.flags ∪ gained
  list : b'.instrs.toList = front ++ b.instrs.toList
  heard : w'.registry.heardOf b.scope =
    w.registry.heardOf b.scope ++ front.reverse.map (⟨b.scope, ·, 0⟩)

namespace Gets

variable {b b' b'' : Builder} {gained gained' : ScopeFlags} {front front' : List Instr}

theorem trans (h : w.Gets b gained front w' b') (h' : w'.Gets b' gained' front' w'' b'') :
    w.Gets b (gained ∪ gained') (front' ++ front) w'' b'' where
  scope := h'.scope.trans h.scope
  start hs := h'.start (h.start hs)
  flags := by rw [h'.flags, h.flags, FlagSet.union_assoc]
  list := by rw [h'.list, h.list, List.append_assoc]
  heard := by
    have hheard := h'.heard
    rw [h.scope] at hheard
    rw [hheard, h.heard, List.reverse_append, List.map_append, List.append_assoc]

/-- Nothing happens to the scope. -/
theorem nothing (hheard : w'.registry.heardOf b.scope = w.registry.heardOf b.scope) :
    w.Gets b ∅ [] w' b :=
  ⟨rfl, id, (FlagSet.union_empty _).symm, rfl, by rw [hheard]; exact (List.append_nil _).symm⟩

end Gets

theorem lt_of_worker? (hk : w.worker? place = some k) : place < w.workers.length := by
  unfold worker? at hk
  by_contra hge
  rw [List.getElem?_eq_none (Nat.le_of_not_lt hge)] at hk
  cases hk

theorem worker?_setWorker_self {k' : Option Worker} (hk : w.worker? place = some k) :
    (w.setWorker place k').worker? place = k' := by
  unfold worker? setWorker
  rw [List.getElem?_set_self (lt_of_worker? hk), Option.join_some]

theorem worker?_setWorker_ne {p : Nat} {k' : Option Worker} (hp : p ≠ place) :
    (w.setWorker p k').worker? place = w.worker? place := by
  unfold worker? setWorker
  rw [List.getElem?_set_ne hp]

theorem worker?_addWorker_of_lt (h : place < w.workers.length) :
    (w.addWorker k').worker? place = w.worker? place := by
  unfold worker? addWorker
  rw [List.getElem?_append_left h]

theorem worker?_addWorker (hk : w.worker? place = some k) :
    (w.addWorker k').worker? place = some k :=
  (worker?_addWorker_of_lt (lt_of_worker? hk)).trans hk

/-- The flags that the scope of the builder at the place gets while an ensure body is at work. -/
def gainedIn (place : Nat) (w : Workshop) (ops : List Op) : ScopeFlags :=
  (if w.sometime (does Act.addsLoop place) ops then {.hasLoops} else ∅) ∪
    if w.sometime (does Act.refuses place) ops then {.usesZSuper} else ∅

/-- The instructions that the scope gets in front of its list meanwhile. -/
def frontIn (place : Nat) (scope : ScopeId) (w : Workshop) (ops : List Op) : List Instr :=
  if w.sometime (does Act.marksStart place) ops then [.label scope.startLabel] else []

theorem sometime_singleton {P : Workshop → Op → Bool} : w.sometime P [op] = P w op := by
  rw [sometime]
  cases w.step op <;> exact Bool.or_false _

theorem sometime_cons {P : Workshop → Op → Bool} (h : w.step op = some w') :
    w.sometime P (op :: ops) = (w.sometime P [op] || w'.sometime P ops) := by
  rw [sometime_singleton, sometime, h]

theorem gainedIn_cons (h : w.step op = some w') :
    w.gainedIn place (op :: ops) = w.gainedIn place [op] ∪ w'.gainedIn place ops := by
  have hor : ∀ {p q : Bool} {x : ScopeFlags},
      (if p || q then x else ∅) = (if p then x else ∅) ∪ (if q then x else ∅) := by
    intro p q x
    cases p <;> cases q
    · exact (FlagSet.union_empty _).symm
    · exact ((FlagSet.union_comm _ _).trans (FlagSet.union_empty _)).symm
    · exact (FlagSet.union_empty _).symm
    · exact (FlagSet.union_self _).symm
  have hcons : ∀ P, w.sometime P (op :: ops) = (w.sometime P [op] || w'.sometime P ops) :=
    fun _ => sometime_cons h
  rw [gainedIn, hcons, hcons, hor, hor]
  exact FlagSet.union_union_comm (α := ScopeFlag) ..

/-- The builder at the place goes on after the operations, which do to its scope what they say, and
mark where its body starts at most once. -/
structure Passes (place : Nat) (w : Workshop) (k : Worker) (ops : List Op) (w' : Workshop)
    (k' : Worker) : Prop extends
    w.Gets k.builder (w.gainedIn place ops) (w.frontIn place k.builder.scope ops) w' k'.builder where
  worker : w'.worker? place = some k'
  marked : w.sometime (does Act.marksStart place) ops → k'.builder.closureStart.isSome
  once : k.builder.closureStart.isSome → w.sometime (does Act.marksStart place) ops = false

section Step

variable {n : Nat} {scope : ScopeId}

theorem Passes.refl (hk : w.worker? place = some k) : w.Passes place k [] w k where
  toGets := by
    have hnone : w.gainedIn place [] = ∅ := FlagSet.union_empty _
    rw [hnone]
    exact .nothing rfl
  worker := hk
  marked h := nomatch h
  once _ := rfl

theorem Passes.cons {k₁ : Worker} (hop : w.step op = some w') (h : w.Passes place k [op] w' k₁)
    (h' : w'.Passes place k₁ ops w'' k') : w.Passes place k (op :: ops) w'' k' where
  toGets := by
    have hfront : w.frontIn place k.builder.scope (op :: ops) =
        w'.frontIn place k₁.builder.scope ops ++ w.frontIn place k.builder.scope [op] := by
      rw [frontIn, sometime_cons hop, frontIn, frontIn, h.scope]
      -- once the start label is there, nothing puts it there again
      cases hmark : w.sometime (does Act.marksStart place) [op] with
      | false => rw [Bool.false_or, if_neg Bool.false_ne_true, List.append_nil]
      | true =>
        rw [h'.once (h.marked hmark)]
        rfl
    rw [gainedIn_cons hop, hfront]
    exact h.toGets.trans h'.toGets
  worker := h'.worker
  marked hmark := by
    rw [sometime_cons hop, Bool.or_eq_true] at hmark
    rcases hmark with hmark | hmark
    · exact h'.start (h.marked hmark)
    · exact h'.marked hmark
  once hstart := by
    rw [sometime_cons hop, h.once hstart, h'.once (h.start hstart), Bool.or_false]

theorem passes_of_act {a : Act} (hk : w.worker? place = some k)
    (hstep : w.step (.act place a) = some w') (hbodies : k.builder.ensureBodies ≠ []) :
    ∃ k', w.Passes place k [.act place a] w' k' := by
  obtain ⟨v, t, ht, rfl⟩ := settled_of_step hk hstep
  have hpast := Act.bypasses_of_settled ht
  have hdoes : ∀ P, w.does P place (.act place a) = P (w.session k) a := fun P => by
    simp only [does, hk, Option.any_some, decide_true, Bool.true_and]
  have hgained : w.gainedIn place [.act place a] = a.gained (w.session k) := by
    simp only [gainedIn, sometime_singleton, hdoes]
    rfl
  have hfront : w.frontIn place k.builder.scope [.act place a] = a.front (w.session k) := by
    simp only [frontIn, sometime_singleton, hdoes]
    rfl
  refine ⟨_, ⟨hpast.scope, by exact hpast.start, ?_, ?_, ?_⟩, worker?_setWorker_self hk,
    fun hmark => ?_, fun hstart => ?_⟩
  · rw [hgained]
    exact hpast.flags hbodies
  · rw [hfront]
    exact hpast.list hbodies
  · change t.registry.heardOf _ = _
    rw [hfront, Registry.heardOf, hpast.quiet hbodies, List.filter_append]
    refine congrArg (_ ++ ·) (List.filter_eq_self.mpr fun m hm => ?_)
    obtain ⟨i, -, rfl⟩ := List.mem_map.mp hm
    exact decide_eq_true rfl
  · rw [sometime_singleton, hdoes] at hmark
    have hstart := Act.start_of_marksStart hbodies hmark
    rwa [← eq_of_settled ht] at hstart
  · rw [sometime_singleton, hdoes]
    cases a <;> try rfl
    refine decide_eq_false fun hmark => ?_
    have hnone : k.builder.closureStart = none := hmark.2.1
    rw [hnone] at hstart
    cases hstart

/-- Operations that are not its own do nothing to the scope. -/
theorem passes_of_other (hop : ∀ a, op ≠ .act place a) (hk : w'.worker? place = some k)
    (hheard : w'.registry.heardOf k.builder.scope = w.registry.heardOf k.builder.scope) :
    w.Passes place k [op] w' k := by
  have hdoes : ∀ P, w.sometime (does P place) [op] = false := by
    intro P
    rw [sometime_singleton]
    cases op with
    | act p a =>
      have hp : p ≠ place := fun hp => hop a (hp ▸ rfl)
      simp only [does, hp, decide_false, Bool.false_and]
    | _ => rfl
  refine ⟨?_, hk, fun h => ?_, fun _ => hdoes _⟩
  · have hgained : w.gainedIn place [op] = ∅ := by
      simp only [gainedIn, hdoes]
      exact FlagSet.union_empty _
    have hfront : w.frontIn place k.builder.scope [op] = [] := by
      simp only [frontIn, hdoes]
      rfl
    rw [hgained, hfront]
    exact .nothing hheard
  · rw [hdoes] at h
    cases h

theorem passes_of_step (hk : w.worker? place = some k) (hop : w.step op = some w')
    (hinside : w.inside place n k.builder.scope op) : ∃ k', w.Passes place k [op] w' k' := by
  have hmanages {g : Registry} (hne : ∀ a, op ≠ .act place a) (hg : g.heard = w.registry.heard) :
      ∃ k', w.Passes place k [op] { w with registry := g } k' :=
    ⟨k, passes_of_other hne hk (by rw [Registry.heardOf, hg, Registry.heardOf])⟩
  obtain ⟨hdeep, halone⟩ := Bool.and_eq_true_iff.mp hinside
  have hbodies : k.builder.ensureBodies ≠ [] := by
    rw [hk, Option.any_some, decide_eq_true_eq] at hdeep
    exact List.ne_nil_of_length_pos (Nat.lt_of_le_of_lt (Nat.zero_le n) hdeep)
  -- operations of other builders count only if they work on the same scope, which none may
  cases steps_of_step hop with
  | newScope hg => exact hmanages (fun _ h => Op.noConfusion h) (Registry.heard_of_newScope hg)
  | newLabel hg => exact hmanages (fun _ h => Op.noConfusion h) (Registry.heard_of_newLabel hg)
  | nextTemp hg => exact hmanages (fun _ h => Op.noConfusion h) (Registry.heard_of_nextTemp hg)
  | setRefined hg => exact hmanages (fun _ h => Op.noConfusion h) (Registry.heard_of_updateScope hg)
  | openRoot hg | openInside _ hg =>
    refine ⟨k, passes_of_other (fun _ h => Op.noConfusion h) (worker?_addWorker hk) ?_⟩
    rw [Registry.heardOf, Registry.heardOf, ← Registry.heard_of_openBuilder hg]
    rfl
  | @act p a k₁ _ t hk₁ ht =>
    by_cases hp : p = place
    · subst hp
      exact passes_of_act hk hop hbodies
    · have hscope : k₁.builder.scope ≠ k.builder.scope := by simpa [hp, hk₁] using halone
      exact ⟨k, passes_of_other (fun a h => hp (Op.act.inj h).1)
        ((worker?_setWorker_ne hp).trans hk)
        ((Act.bypasses_of_settled ht).toNotifies.heardOf hscope)⟩
  | @finish p k₁ _ t hk₁ ht =>
    obtain ⟨hp, hscope⟩ : p ≠ place ∧ k₁.builder.scope ≠ k.builder.scope := by
      simpa [hk₁] using halone
    obtain rfl := eq_of_settled ht
    exact ⟨k, passes_of_other (fun _ h => Op.noConfusion h) ((worker?_setWorker_ne hp).trans hk)
      (notes_finish.heardOf hscope)⟩
  | @drop p =>
    have hp : p ≠ place := of_decide_eq_true halone
    exact ⟨k, passes_of_other (fun _ h => Op.noConfusion h) ((worker?_setWorker_ne hp).trans hk) rfl⟩

theorem passes_of_run (hk : w.worker? place = some k) (hrun : w.run ops = some w')
    (hinside : w.Throughout (fun v op _ => v.inside place n k.builder.scope op) ops) :
    ∃ k', w.Passes place k ops w' k' := by
  induction ops generalizing w k with
  | nil =>
    cases hrun
    exact ⟨k, .refl hk⟩
  | cons op ops ih =>
    obtain ⟨w₁, hop, hrun⟩ := Option.bind_eq_some_iff.mp hrun
    unfold Throughout at hinside
    rw [hop] at hinside
    obtain ⟨k₁, h⟩ := passes_of_step hk hop hinside.1
    obtain ⟨k', h'⟩ := ih h.worker hrun (by rw [h.scope]; exact hinside.2)
    exact ⟨k', h.cons hop h'⟩

end Step

/-- From entering an ensure body up to leaving it, whatever is done, the flags and the list of the
scope stay as they are and the listener hears nothing of it, but for this: loops and legal retries set
one flag, refused super calls another, and the first redo of a block that starts nowhere yet puts its
start label in front. -/
theorem gets_of_run {w₁ : Workshop} {frame : EnsureFrame} (hk : w.worker? place = some k)
    (henter : w.step (.act place (.enterEnsureBody frame)) = some w₁)
    (hrun : w₁.run ops = some w')
    (hinside : w₁.Throughout
      (fun v op _ => v.inside place k.builder.ensureBodies.length k.builder.scope op) ops) :
    ∃ k', w'.worker? place = some k' ∧ w.Gets k.builder
      ((if w₁.sometime (does Act.addsLoop place) ops then {.hasLoops} else ∅) ∪
        if w₁.sometime (does Act.refuses place) ops then {.usesZSuper} else ∅)
      (if w₁.sometime (does Act.marksStart place) ops then [.label k.builder.scope.startLabel]
        else []) w' k'.builder := by
  obtain ⟨v, t, ht, rfl⟩ := settled_of_step hk henter
  cases ht
  obtain ⟨k', h⟩ := passes_of_run (worker?_setWorker_self hk) hrun hinside
  exact ⟨k', h.worker, h.scope, h.start, h.flags, h.list, h.heard⟩

/-- A block outside of every method, about to be built. -/
def blockOpens : List Op :=
  [.newScope .closure ⟨"_CLOSURE_"⟩ "main.rb" 0 none, .openRoot ⟨0⟩]

def entersCleanup : Op :=
  .act 0 (.enterEnsureBody ⟨⟨"LBL", 0⟩, ⟨"LBL", 1⟩, ⟨"LBL", 2⟩, ⟨"LBL", 3⟩, .unrescued, none, []⟩)

/-- The cleanup contains a loop, starts the block again and calls a method that is not there. -/
def cleanup : List Op :=
  [.act 0 .pushLoop, .act 0 .popLoop, .act 0 .redo, .act 0 (.zsuper .nullBlock),
    .act 0 .exitEnsureBody]

theorem gets_of_run_cleanup : ∃ w ∈ (Workshop.empty {}).run blockOpens,
    ∃ w₁ ∈ w.step entersCleanup, ∃ w' ∈ w₁.run cleanup, ∃ k ∈ w.worker? 0, ∃ k',
      w'.worker? 0 = some k' ∧ w.Gets k.builder
        ((if w₁.sometime (does Act.addsLoop 0) cleanup then {.hasLoops} else ∅) ∪
          if w₁.sometime (does Act.refuses 0) cleanup then {.usesZSuper} else ∅)
        (if w₁.sometime (does Act.marksStart 0) cleanup then [.label k.builder.scope.startLabel]
          else []) w' k'.builder := by
  obtain ⟨w, hw, w₁, henter, w', hrun, k, hk, hinside⟩ : ∃ w ∈ (Workshop.empty {}).run blockOpens,
      ∃ w₁ ∈ w.step entersCleanup, ∃ w' ∈ w₁.run cleanup, ∃ k ∈ w.worker? 0, w₁.Throughout
        (fun v op _ => v.inside 0 k.builder.ensureBodies.length k.builder.scope op) cleanup := by
    decide +kernel
  exact ⟨w, hw, w₁, henter, w', hrun, k, hk, gets_of_run hk henter hrun hinside⟩

/-- Flags, list and listener notice what is done in an ensure body. -/
theorem cleanup_not_isolated : ∃ w ∈ (Workshop.empty {}).run blockOpens,
    ∃ w₁ ∈ w.step entersCleanup, ∃ w' ∈ w₁.run cleanup, ∃ k ∈ w.worker? 0, ∃ k' ∈ w'.worker? 0,
      w₁.Throughout (fun v op _ => v.inside 0 k.builder.ensureBodies.length k.builder.scope op)
        cleanup ∧
      k'.builder.ensureBodies = k.builder.ensureBodies ∧ k'.builder.flags ≠ k.builder.flags ∧
      k'.builder.instrs ≠ k.builder.instrs ∧
      w'.registry.heardOf k.builder.scope ≠ w.registry.heardOf k.builder.scope := by
  decide +kernel

end Workshop

end ScopeIR
