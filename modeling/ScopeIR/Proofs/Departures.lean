import ScopeIR.Proofs.Restarts

/-! Break, next and return leave through copies of the ensure bodies whose regions they leave. Which
those are is read off the way to where they stand. -/

namespace ScopeIR

/-- The jumps that leave a loop, an iteration, a block or a method. -/
inductive Departure where
  | break (value : Operand)
  | next (value : Operand)
  | return (value : Operand)

namespace Departure

def code : Departure → Code
  | .break value => .break value
  | next value => .next value
  | .return value => .return value

def run : Departure → SessionM Unit
  | .break value => Session.breakWith value
  | next value => BuildT.next value
  | .return value => Session.returnWith value

/-- The active ensures that are left. -/
def passed (b : Builder) : Departure → List EnsureFrame
  | .break _ | next _ => Session.passedEnsures (b.currentLoop.map (·.id)) b.ensures
  | .return _ => b.ensures

/-- What is built before the copies of the bodies, which takes `s` to `u`, and after them. -/
inductive Around (s u : Session) : Departure → List Instr → List Instr → Prop
  | loop {value : Operand} {frame : LoopFrame} : s.builder.currentLoop = some frame →
    Around s u (.break value) [] [.copy frame.result value, .jump frame.loopEnd]
  | iteration {value : Operand} {frame : LoopFrame} : s.builder.currentLoop = some frame →
    Around s u (.next value) [] [.jump frame.iterEnd]
  | block {value : Operand} : s.builder.currentLoop = none →
    Around s u (.next value) [] [.threadPoll, .ret value]
  | bare {value : Operand} : s.builder.ensures = [] → Around s u (.return value) [] [.ret value]
  /-- The value is saved before the bodies run. -/
  | saved {value : Operand} {result : Variable} : result.isTemp → s.temps ≤ result.index →
    result.index < u.temps → Around s u (.return value) [.copy result value] [.ret result]

end Departure

/-- What stands below these passages is in a loop of its own scope. -/
def Passage.inLoop : List Passage → Bool
  | [] | .scope :: _ => false
  | .iteration :: _ => true
  | _ :: ps => inLoop ps

namespace Departure

/-- It jumps: a break does in a loop, and a return in a scope that owns the frame it returns from. -/
def Jumps (s : Session) (inLoop : Prop) : Departure → Prop
  | .break _ => inLoop
  | next _ => True
  | .return _ => ∀ x, s.registry.scope? s.builder.scope = some x →
    !x.kind.isClosureLike ∧ !x.kind.isModuleBody

theorem Jumps.imp {d : Departure} {s : Session} {p q : Prop} (h : d.Jumps s p) (hpq : p → q) :
    d.Jumps s q := by
  cases d with
  | «break» => exact hpq h
  | next => trivial
  | «return» => exact h

/-- No region around the passage is left. -/
def ends : Departure → Passage → Bool
  | _, .scope => true
  | .break _, .iteration | next _, .iteration => true
  | _, _ => false

/-- The cleanups of the regions that are left, innermost first. -/
def left (d : Departure) (ps : List Passage) : List Code :=
  (ps.takeWhile fun p => !d.ends p).filterMap Passage.cleanup?

end Departure

namespace TrailM

/-- A next has no body and leaves the trail alone. -/
theorem next_eq_liftM (value : Operand) :
    (BuildT.next value : TrailM Unit) = liftM (BuildT.next value : SessionM Unit) := by
  unfold BuildT.next
  simp only [Session.liftM_self, liftM_bind]
  refine bind_congr fun b => bind_congr fun _ => ?_
  cases b.currentLoop with
  | some frame => rfl
  | none =>
    simp only [liftM_bind]
    refine bind_congr fun _ => bind_congr fun scope => ?_
    split
    · rfl
    · split <;> rfl

theorem runs_next {value : Operand} {s t : Session} {h k : Trail} {v : Unit} :
    Runs (BuildT.next value) s h v t k ↔ s.Runs (BuildT.next value) v t ∧ h = k := by
  rw [next_eq_liftM, runs_liftM]

end TrailM

namespace Session

variable {s t : Session} {d : Departure} {before cs after : List Instr} {value : Operand} {v : Unit}

/-- The bodies that are passed are copied one after the other. -/
inductive Departs (s t : Session) (d : Departure) (before cs after : List Instr) : Prop
  | mk {u v : Session} : d.Around s u before after → s.Emits u before →
    CopiesAll (d.passed s.builder) u v cs → v.Emits t after → Departs s t d before cs after

theorem Departs.emits (h : s.Departs t d before cs after) : s.Emits t (before ++ cs ++ after) := by
  obtain ⟨-, hbefore, hcopies, hafter⟩ := h
  exact (hbefore.trans hcopies.emits).trans hafter

theorem departs_of_returnWith (hd : ∀ x, s.registry.scope? s.builder.scope = some x →
    !x.kind.isClosureLike ∧ !x.kind.isModuleBody) (h : s.Runs (returnWith value) v t) :
    ∃ before cs after, s.Departs t (.return value) before cs after := by
  simp only [returnWith, runs_bind, runs_ownScope, runs_get, runs_liftM_except] at h
  obtain ⟨x, _, ⟨hx, rfl⟩, _, _, ⟨rfl, rfl⟩, chain, _, ⟨-, rfl⟩, h⟩ := h
  have hkind := hd x hx
  simp only [Bool.not_eq_true'] at hkind
  simp only [hkind.1, hkind.2, Bool.false_eq_true, reduceIte, runs_bind, runs_current] at h
  obtain ⟨_, _, ⟨rfl, rfl⟩, h⟩ := h
  split at h
  · next hnil =>
    have hnil := List.isEmpty_iff.mp hnil
    refine ⟨_, [], _, .mk (.bare hnil) (.refl _) ?_ (emits_of_emit h)⟩
    rw [Departure.passed, hnil]
    exact .nil (.refl _)
  · simp only [runs_bind] at h
    obtain ⟨result, _, hresult, _, s₁, hcopy, _, u, hcopies, hret⟩ := h
    have hresult := takesTemp_of_temp hresult
    have hcopy := emits_of_emit hcopy
    obtain ⟨cs, hcs⟩ := copiesAll_of_copyEnsures hcopies
    rw [passedEnsures, (hresult.toEmits.trans hcopy).sameStacks.ensures] at hcs
    have hlt := hresult.lt.trans_le hcopy.temps_le
    exact ⟨_, _, _, .mk (.saved hresult.isTemp hresult.ge hlt) (hresult.toEmits.trans hcopy) hcs
      (emits_of_emit hret)⟩

theorem departs_of_runs (hd : d.Jumps s (s.builder.currentLoop ≠ none)) (h : s.Runs d.run v t) :
    ∃ before cs after, s.Departs t d before cs after := by
  cases d with
  | «break» value =>
    obtain ⟨xs, hxs⟩ := breaks_of_breakWith h
    cases hxs with
    | @loop frame u cs hframe hcopies hjump =>
      have hpassed : Departure.passed s.builder (.break value) =
          passedEnsures (some frame.id) s.builder.ensures := by
        rw [Departure.passed, Builder.currentLoop, hframe, Option.map_some]
      exact ⟨_, _, _, .mk (.loop hframe) (.refl s) (hpassed ▸ hcopies) hjump⟩
    | block hnil _ _ _ => exact absurd (by rw [Builder.currentLoop, hnil, List.head?_nil]) hd
  | next value =>
    obtain ⟨xs, -, hxs⟩ := (TrailM.builds_next (h := ⟨[], []⟩) (I := fun _ => True)
      (Q := fun _ t _ xs => s.Nexts value t xs) fun hxs => hxs).result
      (TrailM.runs_next.mpr ⟨h, rfl⟩)
    cases hxs with
    | @loop frame u cs hframe hcopies hjump =>
      have hpassed : Departure.passed s.builder (.next value) =
          passedEnsures (some frame.id) s.builder.ensures := by
        rw [Departure.passed, Builder.currentLoop, hframe, Option.map_some]
      exact ⟨_, _, _, .mk (.iteration hframe) (.refl s) (hpassed ▸ hcopies) hjump⟩
    | @block _ u cs hnil hcopies _ _ hret =>
      have hloop : s.builder.currentLoop = none := by rw [Builder.currentLoop, hnil, List.head?_nil]
      have hpassed : Departure.passed s.builder (.next value) = s.builder.ensures := by
        rw [Departure.passed, hloop, Option.map_none, passedEnsures]
      exact ⟨_, _, _, .mk (.block hloop) (.refl s) (hpassed ▸ hcopies) hret⟩
  | «return» value => exact departs_of_returnWith hd h

/-- Numbers of loops and labels of bodies are used once. -/
structure Distinct (s : Session) : Prop where
  loop : ∀ f ∈ s.builder.loops, f.id.number < s.builder.nextLoop
  ensure : ∀ f ∈ s.builder.ensures, ∀ id ∈ f.innermostLoop, id.number < s.builder.nextLoop
  active : ∀ f ∈ s.builder.ensures, f.bodyStart.index.toNat < s.labels
  body : ∀ g ∈ s.builder.ensureBodies, g.bodyStart.index.toNat < s.labels
  apart : ∀ f ∈ s.builder.ensures, ∀ g ∈ s.builder.ensureBodies, f.bodyStart ≠ g.bodyStart

namespace Distinct

theorem of_fresh (h : s.builder.Fresh) : s.Distinct where
  loop f hf := by
    rw [h.loops] at hf
    cases hf
  ensure f hf := by
    rw [h.ensures] at hf
    cases hf
  active f hf := by
    rw [h.ensures] at hf
    cases hf
  body g hg := by
    rw [h.ensureBodies] at hg
    cases hg
  apart f hf := by
    rw [h.ensures] at hf
    cases hf

/-- What is around may have gained a loop or an ensure, with a number or a label of its own. -/
theorem of_precedes (h : s.Distinct) (hst : s.Precedes t)
    (hloops : ∀ f ∈ t.builder.loops, f ∈ s.builder.loops ∨ f.id.number < t.builder.nextLoop)
    (hensures : ∀ f ∈ t.builder.ensures, f ∈ s.builder.ensures ∨
      (∀ id ∈ f.innermostLoop, id.number < t.builder.nextLoop) ∧
      f.bodyStart.index.toNat < t.labels ∧
      ∀ g ∈ t.builder.ensureBodies, f.bodyStart ≠ g.bodyStart) : t.Distinct where
  loop f hf := by
    rcases hloops f hf with hf | hlt
    · exact (h.loop f hf).trans_le hst.nextLoop
    · exact hlt
  ensure f hf := by
    rcases hensures f hf with hf | ⟨hid, -⟩
    · exact fun id hid => (h.ensure f hf id hid).trans_le hst.nextLoop
    · exact hid
  active f hf := by
    rcases hensures f hf with hf | ⟨-, hlt, -⟩
    · exact (h.active f hf).trans_le hst.labels
    · exact hlt
  body g hg := by
    rcases hst.bodies g hg with ⟨g', hg', heq⟩ | ⟨-, hlt⟩
    · exact heq ▸ (h.body g' hg').trans_le hst.labels
    · exact hlt
  apart f hf g hg := by
    rcases hensures f hf with hf | ⟨-, -, hne⟩
    · rcases hst.bodies g hg with ⟨g', hg', heq⟩ | ⟨hge, -⟩
      · exact heq ▸ h.apart f hf g' hg'
      · rintro heq
        have hlt := h.active f hf
        rw [heq] at hlt
        exact absurd hlt (Nat.not_lt.mpr hge)
    · exact hne g hg

theorem of_rests (h : s.Distinct) (hst : s.Rests t) : t.Distinct := by
  have hloops : t.builder.loops = s.builder.loops := congrArg Builder.Around.loops hst.around
  have hensures : t.builder.ensures = s.builder.ensures :=
    congrArg Builder.Around.ensures hst.around
  exact h.of_precedes hst.toPrecedes (fun f hf => .inl (hloops ▸ hf))
    fun f hf => .inl (hensures ▸ hf)

theorem of_enters {p : Passage} (h : s.Distinct) (hst : Passage.Enters s p t) : t.Distinct := by
  cases hst with
  | iteration hadds hge hlt haround =>
    have hloops : t.builder.loops = _ :: s.builder.loops := congrArg Builder.Around.loops haround
    have hensures : t.builder.ensures = s.builder.ensures :=
      congrArg Builder.Around.ensures haround
    refine h.of_precedes hadds.precedes (fun f hf => ?_) fun f hf => .inl (hensures ▸ hf)
    rcases List.mem_cons.mp (hloops ▸ hf) with rfl | hf
    · exact .inr hlt
    · exact .inl hf
  | handler hadds haround =>
    have hloops : t.builder.loops = s.builder.loops := congrArg Builder.Around.loops haround
    have hensures : t.builder.ensures = s.builder.ensures :=
      congrArg Builder.Around.ensures haround
    exact h.of_precedes hadds.precedes (fun f hf => .inl (hloops ▸ hf))
      fun f hf => .inl (hensures ▸ hf)
  | @region _ frame _ _ hadds _ hloop hge hlt haround =>
    have hloops : t.builder.loops = s.builder.loops := congrArg Builder.Around.loops haround
    have hensures : t.builder.ensures = frame :: s.builder.ensures :=
      congrArg Builder.Around.ensures haround
    refine h.of_precedes hadds.precedes (fun f hf => .inl (hloops ▸ hf)) fun f hf => ?_
    rcases List.mem_cons.mp (hensures ▸ hf) with rfl | hf
    swap
    · exact .inl hf
    refine .inr ⟨fun id hid => ?_, hlt, fun g hg heq => ?_⟩
    · rw [hloop] at hid
      obtain ⟨l, hl, rfl⟩ := Option.map_eq_some_iff.mp hid
      exact (h.loop l (List.mem_of_head? hl)).trans_le hadds.nextLoop
    -- the bodies that are being built were begun before the region was opened
    · obtain ⟨g', hg', heq'⟩ := hadds.bodyStart_mem hg
      have := h.body g' hg'
      rw [heq', ← heq] at this
      omega
  | scope hfresh => exact of_fresh hfresh

end Distinct

end Session

namespace Departure

variable {d : Departure} {ps : List Passage} {s t : Session}

theorem left_cons {p : Passage} (hp : d.ends p = false) :
    d.left (p :: ps) = p.cleanup?.toList ++ d.left ps := by
  rw [left, List.takeWhile_cons_of_pos (by rw [hp, Bool.not_false])]
  cases p <;> rfl

theorem left_cons_of_ends {p : Passage} (hp : d.ends p) : d.left (p :: ps) = [] := by
  rw [left, List.takeWhile_cons_of_neg (by rw [hp]; decide), List.filterMap_nil]

theorem passed_of_nil {b : Builder} (h : b.ensures = []) : d.passed b = [] := by
  cases d <;> simp only [passed, h, Session.passedEnsures] <;> split <;> rfl

theorem passed_eq {b c : Builder} (hloops : c.loops = b.loops) (hensures : c.ensures = b.ensures) :
    d.passed c = d.passed b := by
  cases d <;> simp only [passed, Builder.currentLoop, hloops, hensures]

/-- An ensure that stands in the current loop is left before those around it. -/
theorem passed_cons {b c : Builder} {frame : EnsureFrame} (hloops : c.loops = b.loops)
    (hensures : c.ensures = frame :: b.ensures)
    (hframe : frame.innermostLoop = b.currentLoop.map (·.id)) :
    d.passed c = frame :: d.passed b := by
  have hpassed : Session.passedEnsures (b.currentLoop.map (·.id)) (frame :: b.ensures) =
      frame :: Session.passedEnsures (b.currentLoop.map (·.id)) b.ensures := by
    cases hloop : b.currentLoop.map (·.id) with
    | none => rfl
    | some id =>
      rw [Session.passedEnsures, List.takeWhile_cons_of_pos, Session.passedEnsures]
      exact decide_eq_true (hframe.trans hloop)
  have hcurrent : c.currentLoop = b.currentLoop := by rw [Builder.currentLoop, hloops]; rfl
  cases d with
  | «break» | next => simp only [passed, hcurrent, hensures, hpassed]
  | «return» => simp only [passed, hensures]

/-- No ensure that is active when a loop is begun stands in it. -/
theorem passed_eq_nil {b : Builder} {frame : LoopFrame} (hd : d.ends .iteration)
    (hloop : b.currentLoop = some frame)
    (h : ∀ f ∈ b.ensures, ∀ id ∈ f.innermostLoop, id.number < frame.id.number) :
    d.passed b = [] := by
  have hpassed : Session.passedEnsures (some frame.id) b.ensures = [] := by
    cases hensures : b.ensures with
    | nil => rfl
    | cons f fs =>
      rw [Session.passedEnsures, List.takeWhile_cons_of_neg]
      intro heq
      exact lt_irrefl _ (h f (hensures ▸ List.mem_cons_self) frame.id (of_decide_eq_true heq))
  cases d with
  | «break» | next => simp only [passed, hloop, Option.map_some, hpassed]
  | «return» => cases hd

theorem passed_front (d : Departure) (b : Builder) : d.passed b <+: b.ensures := by
  cases d with
  | «break» | next =>
    simp only [passed, Session.passedEnsures]
    split
    · exact List.prefix_rfl
    · exact List.takeWhile_prefix _
  | «return» => exact List.prefix_rfl

theorem passed_eq_ensures {b : Builder} (h : d.ends .iteration = false ∨ b.currentLoop = none) :
    d.passed b = b.ensures := by
  cases d with
  | «break» | next =>
    have hloop : b.currentLoop = none := h.resolve_left Bool.noConfusion
    simp only [passed, hloop, Option.map_none, Session.passedEnsures]
  | «return» => rfl

/-- The active ensures that are passed are those whose regions were entered on the way, since the
loop was begun or in the scope. -/
structure Tracks (d : Departure) (ps : List Passage) (s : Session) : Prop where
  distinct : s.Distinct
  inLoop : Passage.inLoop ps ↔ s.builder.currentLoop ≠ none
  built : List.Forall₂ EnsureFrame.Built (d.passed s.builder) (d.left ps)

theorem Tracks.of_rests (hs : d.Tracks ps s) (h : s.Rests t) : d.Tracks ps t := by
  have hloops : t.builder.loops = s.builder.loops := congrArg Builder.Around.loops h.around
  have hensures : t.builder.ensures = s.builder.ensures := congrArg Builder.Around.ensures h.around
  refine ⟨hs.distinct.of_rests h, ?_, ?_⟩
  · rw [Builder.currentLoop, hloops]
    exact hs.inLoop
  · rw [passed_eq hloops hensures]
    exact hs.built

theorem Tracks.of_enters {p : Passage} (hs : d.Tracks ps s) (h : Passage.Enters s p t) :
    d.Tracks (p :: ps) t := by
  suffices hrest : (Passage.inLoop (p :: ps) ↔ t.builder.currentLoop ≠ none) ∧
      List.Forall₂ EnsureFrame.Built (d.passed t.builder) (d.left (p :: ps)) from
    ⟨hs.distinct.of_enters h, hrest.1, hrest.2⟩
  cases h with
  | @iteration _ frame _ hadds hge hlt haround =>
    have hloops : t.builder.loops = frame :: s.builder.loops :=
      congrArg Builder.Around.loops haround
    have hensures : t.builder.ensures = s.builder.ensures :=
      congrArg Builder.Around.ensures haround
    have hcurrent : t.builder.currentLoop = some frame := by
      rw [Builder.currentLoop, hloops, List.head?_cons]
    refine ⟨by simp [Passage.inLoop, hcurrent], ?_⟩
    cases hd : d.ends .iteration with
    | true =>
      have hnone : ∀ f ∈ t.builder.ensures, ∀ id ∈ f.innermostLoop, id.number < frame.id.number :=
        fun f hf id hid => (hs.distinct.ensure f (hensures ▸ hf) id hid).trans_le hge
      rw [passed_eq_nil hd hcurrent hnone, left_cons_of_ends hd]
      exact .nil
    | false =>
      rw [left_cons hd]
      have hpassed : d.passed t.builder = d.passed s.builder := by
        cases d with
        | «break» | next => cases hd
        | «return» => exact hensures
      exact hpassed ▸ hs.built
  | handler hadds haround =>
    have hloops : t.builder.loops = s.builder.loops := congrArg Builder.Around.loops haround
    have hensures : t.builder.ensures = s.builder.ensures :=
      congrArg Builder.Around.ensures haround
    rw [passed_eq hloops hensures, left_cons (by cases d <;> rfl), Builder.currentLoop, hloops]
    exact ⟨hs.inLoop, hs.built⟩
  | region hadds hframe hinner hge hlt haround =>
    have hloops : t.builder.loops = s.builder.loops := congrArg Builder.Around.loops haround
    have hensures : t.builder.ensures = _ :: s.builder.ensures :=
      congrArg Builder.Around.ensures haround
    rw [passed_cons hloops hensures hinner, left_cons (by cases d <;> rfl), Builder.currentLoop,
      hloops]
    exact ⟨hs.inLoop, .cons hframe hs.built⟩
  | scope hfresh =>
    rw [passed_of_nil hfresh.ensures, left_cons_of_ends (by cases d <;> rfl), Builder.currentLoop,
      hfresh.loops]
    exact ⟨by simp [Passage.inLoop], .nil⟩

theorem tracks_of_leads (hs : s.builder.Fresh) (h : Passage.Leads s ps t) : d.Tracks ps t := by
  induction h with
  | here hrests =>
    refine Tracks.of_rests ⟨.of_fresh hs, ?_, ?_⟩ hrests
    · simp [Passage.inLoop, Builder.currentLoop, hs.loops]
    · rw [passed_of_nil hs.ensures]
      exact .nil
  | enter _ henters hrests ih => exact (ih.of_enters henters).of_rests hrests

end Departure

section Whole

open TrailM Session

variable {d : Departure} {ps : List Passage} {c : Code} {place : Nesting} {s t : Session}
  {h k : Trail}

/-- Whatever is built, break, next and return leave through copies of the bodies of just those
regions that were entered on the way, innermost first, each under the rescuer of its ensure, and no
body that is still being built is among them. -/
theorem departs_of_build (hs : s.Starts) (hw : (Code.seq .mark d.code).Within ps c)
    (hbuild : Runs (c.build place) s h () t k) :
    ∃ p ∈ k.points, Passage.Leads s ps p.2 ∧ ∃ v, p.2.Runs d.run () v ∧
      (d.Jumps p.2 (Passage.inLoop ps) → ∃ before cs after,
        p.2.Departs v d before cs after ∧ p.2.Emits v (before ++ cs ++ after) ∧
        List.Forall₂ EnsureFrame.Built (d.passed p.2.builder) (d.left ps) ∧
        d.passed p.2.builder <+: p.2.builder.ensures ∧
        (d.ends .iteration = false ∨ Passage.inLoop ps = false →
          d.passed p.2.builder = p.2.builder.ensures) ∧
        v.builder.ensures = p.2.builder.ensures ∧
        ∀ f ∈ d.passed p.2.builder, ∀ g ∈ p.2.builder.ensureBodies, f.bodyStart ≠ g.bodyStart) := by
  obtain ⟨-, -, p, hp, h', v, l, hrun, hleads⟩ := (Code.finds_build hw place s h).result hbuild
  obtain ⟨hdistinct, hloop, hbuilt⟩ := Departure.tracks_of_leads (d := d) hs.fresh hleads
  have hrun : p.2.Runs d.run () v := by
    cases d with
    | «break» | «return» => exact (runs_liftM.mp hrun).1
    | next => exact (runs_next.mp hrun).1
  refine ⟨p, hp, hleads, v, hrun, fun hd => ?_⟩
  obtain ⟨before, cs, after, hdeparts⟩ := departs_of_runs (hd.imp hloop.mp) hrun
  have hfront : d.passed p.2.builder <+: p.2.builder.ensures := d.passed_front _
  refine ⟨before, cs, after, hdeparts, hdeparts.emits, hbuilt, hfront, fun hout => ?_,
    hdeparts.emits.sameStacks.ensures, fun f hf => hdistinct.apart f (hfront.subset hf)⟩
  refine Departure.passed_eq_ensures (hout.imp_right fun hout => ?_)
  by_contra hne
  rw [hloop.mpr hne] at hout
  cases hout

/-- Calls the method on self. -/
def Code.callSelf (name : String) : Code :=
  .call .self .normal (.var .self) ⟨name⟩ [] .nullBlock ∅

/-- The break leaves two of three regions, the inner one of which has nothing to clean up. -/
def Code.breakInRegions : Code :=
  .ensure
    (.loop .done (.boolean true)
      (.ensure (.ensure (.seq .mark (.break .nil)) .nil .done .nil) .nil (callSelf "close") .nil)
      true true)
    .nil (callSelf "unlock") .nil

theorem departs_of_build_breakInRegions : ∃ t k, (single .method).Starts ∧
    (Code.seq .mark (Departure.break .nil).code).Within
      [.region .done, .region (.callSelf "close"), .iteration, .region (.callSelf "unlock")]
      Code.breakInRegions ∧
    Runs (Code.breakInRegions.build ⟨.method, []⟩) (single .method) ⟨[], []⟩ () t k ∧
    ∃ p ∈ k.points, ∃ v, p.2.Runs (Departure.break .nil).run () v ∧ ∃ before cs after,
      p.2.Departs v (.break .nil) before cs after ∧
      List.Forall₂ EnsureFrame.Built ((Departure.break .nil).passed p.2.builder)
        [.done, .callSelf "close"] ∧
      p.2.builder.ensures.length = 3 ∧ v.builder.ensures = p.2.builder.ensures := by
  have hs := starts_single .method
  have hw : (Code.seq .mark (Departure.break .nil).code).Within _ Code.breakInRegions :=
    .region (.iteration (.region (.region .here)))
  have hbuild := TrailM.runs_of_ok (x := Code.breakInRegions.build ⟨.method, []⟩)
    (s := single .method) (h := ⟨[], []⟩) (a := ()) (by decide +kernel)
  have hthree : ∀ p ∈ (Code.breakInRegions.build ⟨.method, []⟩ (single .method) ⟨[], []⟩).2.points,
      p.2.builder.ensures.length = 3 := by decide +kernel
  obtain ⟨p, hp, -, v, hrun, hjumps⟩ := departs_of_build hs hw hbuild
  obtain ⟨before, cs, after, hdeparts, -, hbuilt, -, -, hensures, -⟩ := hjumps rfl
  exact ⟨_, _, hs, hw, hbuild, p, hp, v, hrun, before, cs, after, hdeparts, hbuilt, hthree p hp,
    hensures⟩

end Whole

end ScopeIR
