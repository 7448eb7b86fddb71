import Mathlib.Data.Option.Basic
import Mathlib.Tactic.IntervalCases
import ScopeIR.Proofs.VeiledWorkshop

/-! Tracing is invisible but for what it adds. A caller that is given other names for its
temporaries does the same with them, so the courses of a caller with and without traces agree. -/

namespace ScopeIR

theorem Course.ended_map {ρ : Renumbering} {counter : ScopeId → ScopeId} {c c' : Course}
    (h : c'.heard = c.heard.map (ρ.answer counter)) : c'.ended = c.ended := by
  rw [ended, h, List.getLast?_map, Option.any_map, ended]
  exact congrArg (c.heard.getLast?.any ·) (funext (ρ.ends_answer counter))

/-- The second scope is the first one without traces. -/
def Scope.Untraced (f : Variable → Variable) (x x' : Scope) : Prop :=
  ∃ count, x' = { x with nextTemp := count, instrs := x.instrs.map (untraced f) }

/-- The second workshop is the first one without traces. What temporaries are called in a scope
depends on the counter that they come from there. -/
structure Workshop.Untraced (ρ : Renumbering) (counter : ScopeId → ScopeId) (w w' : Workshop) : Prop
    where
  config : w'.registry.config = { w.registry.config with fullTrace := false }
  nextClosureId : w'.registry.nextClosureId = w.registry.nextClosureId
  size : w'.registry.scopes.size = w.registry.scopes.size
  scope (id : ScopeId) : Option.Rel (Scope.Untraced (ρ.var (counter id))) (w.registry.scope? id)
    (w'.registry.scope? id)
  workers : w'.workers = w.workers.map (Option.map fun k =>
    { k with builder := k.builder.untraced (ρ.var (counter k.builder.scope)) })
  refusing : w'.refusing = w.refusing

/-- The second course is the first one without traces. -/
def Course.Untraced (counter : ScopeId → ScopeId) (c c' : Course) : Prop :=
  ∃ ρ : Renumbering, c.workshop.Untraced ρ counter c'.workshop ∧
    c'.heard = c.heard.map (ρ.answer counter)

/-- Every line number that was not given is followed by its trace, in lists that are finished and in
those of builders at work. -/
structure Workshop.Flushed (given : Int32 → Coverage → Prop) (w : Workshop) : Prop where
  stored {id : ScopeId} {x : Scope} {list : List Instr} : w.registry.scope? id = some x →
    x.instrs = some list → Followed given list
  building {place : ℕ} {k : Worker} : w.worker? place = some k →
    Followed given k.builder.instrs.toList

/-- The caller stopped as there were no more temporaries to take from some scope. -/
def Course.Exhausted (c : Course) : Prop :=
  c.heard.getLast? = some (.fault .overflow) ∧ c.workshop.registry.Spent

theorem Course.Exhausted.ended {c : Course} (h : c.Exhausted) : c.ended := by
  rw [Course.ended, h.1]
  rfl

namespace Program

variable (counter : ScopeId → ScopeId) (given : Int32 → Coverage → Prop) (w₀ : Workshop)
  (p : Program)

def Modest : Prop :=
  ∀ n, (p.course w₀ n).ended = false → (p (p.course w₀ n).heard).Modest given

/-- The caller takes its temporaries as they come: if they had other indices, it would do the same
with those. -/
def Uniform : Prop :=
  ∀ n, (p.course w₀ n).ended = false → ∀ ρ : Renumbering,
    p ((p.course w₀ n).heard.map (ρ.answer counter)) =
      ρ.doing counter (p.course w₀ n).workshop (p (p.course w₀ n).heard)

def Counts : Prop :=
  ∀ n, (p.course w₀ n).ended = false →
    (p (p.course w₀ n).heard).Counts counter (p.course w₀ n).workshop

end Program

/-- What a veil can hide. -/
structure Veil.Admits (V : Veil) (w₀ : Workshop) (p : Program) : Prop where
  modest : p.Modest V.given w₀
  uniform : p.Uniform V.counter w₀
  counts : p.Counts V.counter w₀

namespace Veil

open Session Workshop

variable {V : Veil} {g : Registry} {w w' : Workshop} {p : Program}

section Runs

variable {n : ℕ} {w₀ w₀' : Workshop} {counter : ScopeId → ScopeId}
  {given : Int32 → Coverage → Prop}

theorem sane_course (hw₀ : V.Sane w₀) (hp : V.Admits w₀ p)
    (hn : (p.course w₀ n).ended = false) : V.Sane (p.course w₀ n).workshop := by
  induction n with
  | zero => exact hw₀
  | succ n ih =>
    by_cases hend : (p.course w₀ n).ended
    · rw [Program.course, Course.next_of_ended hend, hend] at hn
      cases hn
    have hgoes := Bool.eq_false_iff.mpr hend
    rw [Program.course, Course.ended_next hgoes] at hn
    rw [Program.course, Course.next_of_not_ended hgoes]
    exact (goesOn_attempt (ih hgoes) (hp.modest n hgoes) (hp.counts n hgoes)).sane hn

theorem unfolds_next (hw₀ : V.Sane w₀) (hp : V.Admits w₀ p) :
    (p.course w₀ n).workshop.registry.Unfolds (p.course w₀ (n + 1)).workshop.registry := by
  rw [Program.course]
  by_cases hend : (p.course w₀ n).ended
  · rw [Course.next_of_ended hend]
    exact .refl _
  · have hgoes := Bool.eq_false_iff.mpr hend
    rw [Course.next_of_not_ended hgoes]
    exact (goesOn_attempt (sane_course hw₀ hp hgoes) (hp.modest n hgoes) (hp.counts n hgoes)).later

theorem unfolds_course (hw₀ : V.Sane w₀) (hp : V.Admits w₀ p) :
    w₀.registry.Unfolds (p.course w₀ n).workshop.registry := by
  induction n with
  | zero => exact .refl _
  | succ n ih => exact ih.trans (unfolds_next hw₀ hp)

/-- Both courses are the same as far as the veil is right, unless there are no more temporaries. -/
theorem pairs_course (hw₀ : V.Sane w₀) (hpairs : V.Pairs w₀ w₀')
    (hp : V.Admits w₀ p)
    (hcomplies : V.Complies (p.course w₀ n).workshop.registry) :
    (V.Pairs (p.course w₀ n).workshop (p.course w₀' n).workshop ∧
        (p.course w₀' n).heard =
          (p.course w₀ n).heard.map (V.renumbering.answer V.counter)) ∨
      (p.course w₀ n).Exhausted := by
  induction n with
  | zero => exact .inl ⟨hpairs, rfl⟩
  | succ n ih =>
    have ih := ih (hcomplies.of_unfolds (unfolds_next hw₀ hp))
    rw [Program.course] at hcomplies ⊢
    rw [Program.course]
    by_cases hend : (p.course w₀ n).ended
    · rw [Course.next_of_ended hend]
      rcases ih with ⟨hpairs, hheard⟩ | hspent
      · have hend' : (p.course w₀' n).ended := (Course.ended_map hheard).trans hend
        rw [Course.next_of_ended hend']
        exact .inl ⟨hpairs, hheard⟩
      · exact .inr hspent
    have hgoes := Bool.eq_false_iff.mpr hend
    rw [Course.next_of_not_ended hgoes] at hcomplies ⊢
    rcases ih with ⟨hpairs, hheard⟩ | hspent
    · have hgoes' : (p.course w₀' n).ended = false := (Course.ended_map hheard).trans hgoes
      rw [Course.next_of_not_ended hgoes', hheard, hp.uniform n hgoes V.renumbering]
      have halike := alike_attempt (sane_course hw₀ hp hgoes) hpairs (hp.modest n hgoes)
        (hp.counts n hgoes) hcomplies
      cases halike with
      | same hpairs ho =>
        refine .inl ⟨hpairs, ?_⟩
        rw [List.map_append, List.map_singleton, ho]
      | spent hfault hspent =>
        refine .inr ⟨?_, hspent⟩
        rw [List.getLast?_concat, hfault]
    · exact absurd hspent.ended hend

open Classical in
/-- The veil that is right about all that happened up to the registry. -/
noncomputable def upTo (g : Registry) (counter : ScopeId → ScopeId)
    (given : Int32 → Coverage → Prop) : Veil where
  taken := g.Traced
  home k := if h : ∃ id x, g.scope? id = some x ∧ x.closureId = some k then h.choose else ⟨0⟩
  counter := counter
  given := given

theorem complies_upTo (hg : g.Arranged) : (upTo g counter given).Complies g where
  taken _ := Iff.rfl
  home {id x k} hx hk := by
    have h : ∃ id x, g.scope? id = some x ∧ x.closureId = some k := ⟨id, x, hx, hk⟩
    obtain ⟨y, hy, hyk⟩ := h.choose_spec
    have hindex := hg.eq_of_closureId hy hx hyk hk
    have hhome : (upTo g counter given).home k = h.choose := dif_pos h
    rw [hhome]
    exact congrArg ScopeId.mk (UInt64.toNat_inj.mp hindex)

theorem sane_empty {config : Config} (htraces : config.fullTrace) :
    V.Sane (Workshop.empty config) where
  grounded := ⟨htraces, (Registry.formed_empty config).arranged, nofun, nofun⟩
  neat h := nomatch h

theorem pairs_empty (config : Config) :
    V.Pairs (Workshop.empty config) (Workshop.empty { config with fullTrace := false }) where
  registry := ⟨rfl, rfl, rfl, fun _ => rfl⟩
  workers := rfl
  refusing := rfl

theorem Sane.flushed (hw : V.Sane w) : w.Flushed V.given where
  stored := hw.grounded.stored
  building hk := (hw.neat hk).list

theorem Pairs.untraced (h : V.Pairs w w') (hg : w.registry.Arranged) :
    w.Untraced V.renumbering V.counter w' where
  config := h.registry.config
  nextClosureId := h.registry.nextClosureId
  size := h.registry.size
  scope id := by
    rw [h.registry.scope]
    cases hx : w.registry.scope? id with
    | none => exact .none
    | some x =>
      have hid := hg.eq_id hx
      exact .some ⟨_, by rw [← hid]; rfl⟩
  workers := h.workers
  refusing := h.refusing

end Runs

end Veil

/-- Whether lines are traced makes no difference to a modest caller, as long as there are
temporaries. The same is done and heard, and without traces the same is built, but for the indices
of temporaries. -/
theorem untraced_of_course {config : Config} {counter : ScopeId → ScopeId}
    {given : Int32 → Coverage → Prop} {p : Program} (htraces : config.fullTrace)
    (hmodest : p.Modest given (Workshop.empty config))
    (huniform : p.Uniform counter (Workshop.empty config))
    (hcounts : p.Counts counter (Workshop.empty config)) (n : ℕ) :
    let c := p.course (Workshop.empty config) n
    let c' := p.course (Workshop.empty { config with fullTrace := false }) n
    (c.Untraced counter c' ∨ c.Exhausted) ∧ (c.ended = false → c.workshop.Flushed given) := by
  intro c c'
  let V := Veil.upTo c.workshop.registry counter given
  have hp : V.Admits (Workshop.empty config) p := ⟨hmodest, huniform, hcounts⟩
  have hempty : V.Sane (Workshop.empty config) := Veil.sane_empty htraces
  have hlater : (Workshop.empty config).registry.Unfolds c.workshop.registry :=
    Veil.unfolds_course hempty hp
  have hg : c.workshop.registry.Arranged := hempty.grounded.arranged.advances hlater.advances
  refine ⟨?_, fun hc => (Veil.sane_course hempty hp hc).flushed⟩
  rcases Veil.pairs_course hempty (Veil.pairs_empty config) hp (Veil.complies_upTo hg) with
    ⟨hpairs, hheard⟩ | hspent
  · exact .inl ⟨V.renumbering, hpairs.untraced hg, hheard⟩
  · exact .inr hspent

/-- Nothing is there yet, and lines will be traced. -/
def Workshop.tracing : Workshop := .empty { fullTrace := true }

/-- A method with a parameter, in which an inner scope calls super. -/
def Program.superIn (kind : ScopeKind) : Program
  | [] => .op (.newScope .method ⟨"m"⟩ "t.rb" 0 none)
  | [.made method] => .op (.openRoot method)
  | [_, _] => .op (.act 0 (.note 1))
  | [_, _, _] => .op (.act 0 (.emit .nop))
  | [_, _, _, _] => .op (.act 0 .temp)
  | [_, _, _, _, .replied _ (.var v)] => .op (.act 0 (.emit (.receive v (.preRequired 0))))
  | [.made method, _, _, _, _, _] => .op (.newScope kind ⟨"each"⟩ "t.rb" 2 (some method))
  | [_, _, _, _, _, _, .made inner] => .op (.openInside 0 inner false)
  | [_, _, _, _, _, _, _, _] => .op (.act 1 (.zsuper .nullBlock))
  | [_, _, _, _, _, _, _, _, _] => .op (.finish 1)
  | _ => .op (.finish 0)

section SuperIn

open Program

variable {kind : ScopeKind} {counter : ScopeId → ScopeId}

theorem Act.modest_emit {given : Int32 → Coverage → Prop} {i : Instr} (hi : i.Fine given) :
    (Act.emit i).Modest given := by
  refine ⟨rfl, nofun, fun j hj => ?_⟩
  obtain rfl := List.mem_singleton.mp hj
  exact hi

theorem modest_superIn {w : Workshop} : (superIn kind).Modest (fun _ _ => False) w := by
  intro n _
  unfold superIn
  split
  all_goals
    first
    | trivial
    | exact Act.modest_emit trivial
    | exact ⟨rfl, by decide, fun _ h => nomatch h⟩

/-- What the caller hears, whichever answer the super call gets. -/
def heardIn (reply : Reply) : List Answer :=
  [.made ⟨0⟩, .opened ⟨0⟩, .replied ⟨0⟩ .done, .replied ⟨0⟩ .done,
    .replied ⟨0⟩ (.var (.temp (.plain 1))), .replied ⟨0⟩ .done, .made ⟨1⟩, .opened ⟨1⟩,
    .replied ⟨1⟩ reply, .done, .done]

theorem doing_of_fixed {ρ : Renumbering} {w : Workshop} {place : ℕ} {a : Act}
    (ha : ∀ id, a.mapVars (ρ.var id) = a) :
    ρ.doing counter w (.op (.act place a)) = .op (.act place a) := by
  dsimp only [Renumbering.doing]
  split
  · rw [ha]
  · rfl

theorem lt_of_not_ended {p : Program} {w : Workshop} {m n : ℕ} (hm : (p.course w m).ended)
    (hn : (p.course w n).ended = false) : n < m := by
  by_contra hge
  rw [course_of_ended hm (Nat.le_of_not_lt hge), hm] at hn
  cases hn

theorem uniform_superIn {w : Workshop} (reply : Reply)
    (hend : ((superIn kind).course w 12).ended)
    (hheard : ∀ n < 12, ((superIn kind).course w n).heard = (heardIn reply).take n)
    (hworker : (((superIn kind).course w 5).workshop.worker? 0).map (·.builder.scope) = some ⟨0⟩) :
    (superIn kind).Uniform counter w := by
  intro n hn ρ
  have hlt := lt_of_not_ended hend hn
  rw [hheard n hlt]
  by_cases h : n = 5
  · subst h
    obtain ⟨k, hk, hscope⟩ := Option.map_eq_some_iff.mp hworker
    dsimp only [heardIn, List.take, List.map, superIn, Renumbering.answer, Renumbering.doing,
      Reply.mapVars]
    rw [hk]
    dsimp only
    rw [hscope]
    rfl
  · interval_cases n
    all_goals first | rfl | exact (doing_of_fixed fun _ => rfl).symm | exact absurd rfl h

/-- In a block, the parameter that super is called with is another temporary than its result, even
if their indices agree. -/
theorem untraced_of_course_superIn :
    let c := (superIn .closure).course .tracing 11
    let c' := (superIn .closure).course (.empty {}) 11
    c.ended = false ∧ c.Untraced (fun _ => ⟨0⟩) c' ∧ c.workshop.Flushed fun _ _ => False := by
  have hgoes : ((superIn .closure).course .tracing 11).ended = false := by decide +kernel
  have hend : ((superIn .closure).course .tracing 12).ended := by decide +kernel
  have huniform : (superIn .closure).Uniform (fun _ => ⟨0⟩) .tracing :=
    uniform_superIn (.var (.temp (.ofClosure 0 0))) hend (by decide +kernel) (by decide +kernel)
  have howns : ∀ n < 12, ∀ k ∈ Doing.atWork? ((superIn .closure).course .tracing n).workshop
      (superIn .closure ((superIn .closure).course .tracing n).heard),
      (((superIn .closure).course .tracing n).workshop.session k).Owns fun _ => ⟨0⟩ := by
    decide +kernel
  have hcounts : (superIn .closure).Counts (fun _ => ⟨0⟩) .tracing := fun n hn =>
    ⟨howns n (lt_of_not_ended hend hn), fun _ _ _ _ _ _ _ => .inl rfl⟩
  have h := @untraced_of_course { fullTrace := true } _ _ _ rfl modest_superIn huniform hcounts 11
  exact ⟨hgoes, h.1.resolve_right fun hexhausted =>
    Bool.false_ne_true (hgoes.symm.trans hexhausted.ended), h.2 hgoes⟩

end SuperIn

section Differences

open Program

variable {counter : ScopeId → ScopeId}

/-- In some scope, what is built with traces is not what is built without them, whatever temporaries
are called there. -/
def Program.Differs (p : Program) (n : ℕ) : Prop :=
  ∃ id x x', (p.course .tracing n).workshop.registry.scope? id = some x ∧
    (p.course (.empty {}) n).workshop.registry.scope? id = some x' ∧
    ∀ f : Variable → Variable, f.Injective → x'.instrs ≠ x.instrs.map (untraced f)

/-- Writes a trace itself. -/
def Program.tracer : Program
  | [] => .op (.newScope .method ⟨"m"⟩ "t.rb" 0 none)
  | [.made method] => .op (.openRoot method)
  | [_, _] => .op (.act 0 (.emit (.tracePoint ⟨.line, .self, none, "t.rb", 2⟩)))
  | _ => .op (.finish 0)

theorem differs_of_instrs {p : Program} {n : ℕ} {id : ScopeId} (list list' : List Instr)
    (hlist : ((p.course .tracing n).workshop.registry.scope? id).bind (·.instrs) = some list)
    (hlist' : ((p.course (.empty {}) n).workshop.registry.scope? id).bind (·.instrs) = some list')
    (h : ∀ f : Variable → Variable, f.Injective → list' ≠ untraced f list) : p.Differs n := by
  obtain ⟨x, hx, hlist⟩ := Option.bind_eq_some_iff.mp hlist
  obtain ⟨x', hx', hlist'⟩ := Option.bind_eq_some_iff.mp hlist'
  refine ⟨id, x, x', hx, hx', fun f hf heq => h f hf ?_⟩
  rw [hlist, hlist'] at heq
  exact Option.some.inj heq

/-- A trace that the caller wrote is not deleted where lines are not traced. -/
theorem differs_tracer : tracer.Differs 4 := by
  let point : Instr := .tracePoint ⟨.line, .self, none, "t.rb", 2⟩
  have hlist : ((tracer.course .tracing 4).workshop.registry.scope? ⟨0⟩).bind (·.instrs) =
      some [point] := by decide +kernel
  have hlist' : ((tracer.course (.empty {}) 4).workshop.registry.scope? ⟨0⟩).bind (·.instrs) =
      some [point] := by decide +kernel
  refine differs_of_instrs [point] [point] hlist hlist' fun f _ h => ?_
  rw [untraced_trace rfl] at h
  cases h

/-- The body of a loop numbers its temporaries anew, but the parameter that super is called with is
the method's. Without traces both have the same index, with traces they have not. -/
theorem differs_superIn : (superIn .forBody).Differs 11 := by
  let call (v : Variable) : Instr :=
    .zsuper ⟨⟨1⟩, .temp (.plain 0), .var .self, [.var v], .nullBlock, ∅, false⟩
  have hlist : (((superIn .forBody).course .tracing 11).workshop.registry.scope? ⟨1⟩).bind
      (·.instrs) = some [call (.temp (.plain 1))] := by decide +kernel
  have hlist' : (((superIn .forBody).course (.empty {}) 11).workshop.registry.scope? ⟨1⟩).bind
      (·.instrs) = some [call (.temp (.plain 0))] := by decide +kernel
  refine differs_of_instrs _ _ hlist hlist' fun f hf h => ?_
  rw [untraced_kept rfl] at h
  have hcall := Instr.zsuper.inj (List.cons.inj h).1
  have hresult : .temp (.plain 0) = f (.temp (.plain 0)) := congrArg ZSuper.result hcall
  have hargs := (List.cons.inj (congrArg ZSuper.args hcall)).1
  have harg : .temp (.plain 0) = f (.temp (.plain 1)) := Atom.var.inj (Operand.atom.inj hargs)
  have hsame : Variable.temp (.plain 0) = .temp (.plain 1) := hf (hresult.symm.trans harg)
  exact absurd hsame (by decide)

/-- Takes temporaries on and on. -/
def Program.taking : Program
  | [] => .op (.newScope .method ⟨"m"⟩ "t.rb" 0 none)
  | [.made method] => .op (.openRoot method)
  | [_, _] => .op (.act 0 (.note 1))
  | [_, _, _] => .op (.act 0 (.emit .nop))
  | _ => .op (.act 0 .temp)

/-- The caller takes temporaries, and so many are gone. -/
structure Course.Takes (c : Course) (gone : ℕ) : Prop where
  goes : c.ended = false
  length : 4 ≤ c.heard.length
  worker : ∃ k x, c.workshop.worker? 0 = some k ∧ k.outer = [] ∧
    c.workshop.registry.scope? k.builder.scope = some x ∧ x.nextTemp.toNat = gone

theorem taking_of_length {heard : List Answer} (h : 4 ≤ heard.length) :
    taking heard = .op (.act 0 .temp) := by
  unfold taking
  split
  case h_5 => rfl
  all_goals
    simp only [List.length_cons, List.length_nil] at h
    omega

theorem attempt_temp {w : Workshop} {k : Worker} {x : Scope} (hk : w.worker? 0 = some k)
    (houter : k.outer = []) (hx : w.registry.scope? k.builder.scope = some x) :
    w.attempt (.op (.act 0 .temp)) =
      match checkedAdd x.nextTemp 1 with
      | some next =>
        ({ w.setWorker 0 (some { k with refused := k.refused || false }) with
          registry := w.registry.setScope k.builder.scope { x with nextTemp := next } },
          .replied k.builder.scope (.var (x.temp x.nextTemp)))
      | none => (w, .fault .overflow) := by
  have hscope : (w.session k).tempScope = k.builder.scope := by
    unfold Workshop.session
    rw [houter]
    rfl
  have hx' : (w.session k).registry.scope? (w.session k).tempScope = some x := hscope ▸ hx
  dsimp only [Workshop.attempt]
  rw [hk]
  dsimp only [Workshop.employ, Act.ask]
  rw [Session.bind_apply, Session.temp_apply, hx']
  dsimp only
  rw [hscope]
  cases checkedAdd x.nextTemp 1 <;> rfl

namespace Course.Takes

variable {c : Course} {gone : ℕ}

theorem next (h : c.Takes gone) (hlt : gone + 1 < UInt64.size) :
    (c.next taking).Takes (gone + 1) := by
  obtain ⟨k, x, hk, houter, hx, hgone⟩ := h.worker
  have hadd : checkedAdd x.nextTemp 1 = some (UInt64.ofNat (gone + 1)) := by
    rw [checkedAdd_eq_some_iff, hgone, UInt64.toNat_ofNat_of_lt' hlt]
    rfl
  have hattempt := attempt_temp hk houter hx
  rw [hadd] at hattempt
  rw [Course.next_of_not_ended h.goes, taking_of_length h.length, hattempt]
  refine ⟨Course.ended_concat, ?_, { k with refused := k.refused || false },
    { x with nextTemp := UInt64.ofNat (gone + 1) }, ?_, houter, ?_, UInt64.toNat_ofNat_of_lt' hlt⟩
  · rw [List.length_append]
    exact h.length.trans (Nat.le_add_right _ _)
  · exact Workshop.worker?_setWorker_self hk
  · exact Registry.scope?_setScope_self hx

theorem ended_next (h : c.Takes gone) (hend : gone + 1 = UInt64.size) : (c.next taking).ended := by
  obtain ⟨k, x, hk, houter, hx, hgone⟩ := h.worker
  have hadd : checkedAdd x.nextTemp 1 = none :=
    (checkedAdd_one_eq_none_iff _).mpr (hgone ▸ hend)
  have hattempt := attempt_temp hk houter hx
  rw [hadd] at hattempt
  rw [Course.next_of_not_ended h.goes, taking_of_length h.length, hattempt, Course.ended_concat]
  rfl

end Course.Takes

theorem takes_course {w : Workshop} {m n gone : ℕ} (h : (taking.course w m).Takes gone)
    (hlt : gone + n < UInt64.size) : (taking.course w (m + n)).Takes (gone + n) := by
  induction n with
  | zero => exact h
  | succ n ih => exact (ih (by omega)).next hlt

theorem takes_of_worker {w : Workshop} {gone : ℕ} (hgoes : (taking.course w 4).ended = false)
    (hlength : (taking.course w 4).heard.length = 4)
    (hworker : ((taking.course w 4).workshop.worker? 0).map (fun k => (k.outer,
      ((taking.course w 4).workshop.registry.scope? k.builder.scope).map (·.nextTemp.toNat))) =
        some ([], some gone)) : (taking.course w 4).Takes gone := by
  obtain ⟨k, hk, hpair⟩ := Option.map_eq_some_iff.mp hworker
  obtain ⟨houter, hscope⟩ := Prod.mk.inj hpair
  obtain ⟨x, hx, hgone⟩ := Option.map_eq_some_iff.mp hscope
  exact ⟨hgoes, hlength.ge, k, x, hk, houter, hx, hgone⟩

/-- The traced run takes one temporary more, so it runs out of them first. -/
theorem ends_taking : ∃ n, (taking.course .tracing n).ended ∧
    (taking.course (.empty {}) n).ended = false := by
  have htraced : (taking.course .tracing 4).Takes 1 :=
    takes_of_worker (by decide +kernel) (by decide +kernel) (by decide +kernel)
  have hplain : (taking.course (.empty {}) 4).Takes 0 :=
    takes_of_worker (by decide +kernel) (by decide +kernel) (by decide +kernel)
  obtain ⟨n, hn⟩ : ∃ n, UInt64.size = n + 2 := ⟨_, (Nat.sub_add_cancel (by decide)).symm⟩
  exact ⟨4 + n + 1, (takes_course htraced (by omega)).ended_next (by omega),
    (takes_course (n := n + 1) hplain (by omega)).goes⟩

theorem uniform_tracer {w : Workshop} : tracer.Uniform counter w := by
  intro n _ ρ
  generalize (tracer.course w n).heard = heard
  rcases heard with _ | ⟨o, heard⟩
  · rfl
  cases o <;> rcases heard with _ | ⟨_, _ | ⟨_, _⟩⟩
  all_goals first | rfl | exact (doing_of_fixed fun _ => rfl).symm

theorem uniform_taking {w : Workshop} : taking.Uniform counter w := by
  intro n _ ρ
  generalize (taking.course w n).heard = heard
  rcases heard with _ | ⟨o, heard⟩
  · rfl
  cases o <;> rcases heard with _ | ⟨_, _ | ⟨_, _ | ⟨_, _⟩⟩⟩
  all_goals first | rfl | exact (doing_of_fixed fun _ => rfl).symm

theorem modest_taking {w : Workshop} : taking.Modest (fun _ _ => False) w := by
  intro n _
  unfold taking
  split
  all_goals
    first
    | trivial
    | exact Act.modest_emit trivial
    | exact ⟨rfl, by decide, fun _ h => nomatch h⟩

/-- Traces show where a scope's temporaries come from two counters, where a caller writes traces
itself, and where there are no more temporaries. -/
theorem traces_show :
    ((superIn .forBody).Modest (fun _ _ => False) .tracing ∧
      (superIn .forBody).Uniform (fun id => id) .tracing ∧ (superIn .forBody).Differs 11) ∧
    (tracer.Uniform (fun id => id) .tracing ∧ tracer.Differs 4) ∧
    taking.Modest (fun _ _ => False) .tracing ∧ taking.Uniform (fun id => id) .tracing ∧
      ∃ n, (taking.course .tracing n).ended ∧ (taking.course (.empty {}) n).ended = false := by
  have huniform : (superIn .forBody).Uniform (fun id => id) .tracing :=
    uniform_superIn (.var (.temp (.plain 0))) (by decide +kernel) (by decide +kernel)
      (by decide +kernel)
  exact ⟨⟨modest_superIn, huniform, differs_superIn⟩, ⟨uniform_tracer, differs_tracer⟩,
    modest_taking, uniform_taking, ends_taking⟩

end Differences

end ScopeIR
