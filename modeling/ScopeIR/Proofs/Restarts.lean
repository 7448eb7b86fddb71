import ScopeIR.Proofs.Layout
import ScopeIR.Proofs.Steady

/-! Redo and retry jump back from wherever they stand, through the ensures around them. Unlike the exits
that jump ahead they copy no ensure body. -/

namespace ScopeIR

/-- What is entered on the way from code to a part of it. -/
inductive Passage where
  | iteration
  | handler
  | region (cleanup : Code)
  /-- The body of a scope that is built inside. -/
  | scope

/-- The cleanup that is to run when the passage is left. -/
def Passage.cleanup? : Passage → Option Code
  | .region cleanup => some cleanup
  | _ => none

/-- The part stands in the code, and on the way to it these passages are entered, listed from inside
out. -/
inductive Code.Within (part : Code) : List Passage → Code → Prop
  | here : Within part [] part
  | first {ps : List Passage} {first rest : Code} :
    Within part ps first → Within part ps (.seq first rest)
  | rest {ps : List Passage} {first rest : Code} :
    Within part ps rest → Within part ps (.seq first rest)
  | yes {ps : List Passage} {value test : Operand} {yes no : Code} :
    Within part ps yes → Within part ps (.ifElse value test yes no)
  | no {ps : List Passage} {value test : Operand} {yes no : Code} :
    Within part ps no → Within part ps (.ifElse value test yes no)
  | ifNot {ps : List Passage} {value test : Operand} {body : Code} :
    Within part ps body → Within part ps (.ifNot value test body)
  | forTest {ps : List Passage} {test increment body : Code} :
    Within part ps test → Within part ps (.forLoop test increment body)
  | forIncrement {ps : List Passage} {test increment body : Code} :
    Within part ps increment → Within part ps (.forLoop test increment body)
  | forBody {ps : List Passage} {test increment body : Code} :
    Within part ps body → Within part ps (.forLoop test increment body)
  | times {ps : List Passage} {count i : Nat} {body : Nat → Code} :
    i < count → Within part ps (body i) → Within part ps (.times count body)
  | labelled {ps : List Passage} {stem : Stem} {body : Code} :
    Within part ps body → Within part ps (.labelled stem body)
  | condition {ps : List Passage} {condition body : Code} {value : Operand} {goOn testFirst : Bool} :
    Within part ps condition →
    Within part (ps ++ [.iteration]) (.loop condition value body goOn testFirst)
  | iteration {ps : List Passage} {condition body : Code} {value : Operand} {goOn testFirst : Bool} :
    Within part ps body →
    Within part (ps ++ [.iteration]) (.loop condition value body goOn testFirst)
  | region {ps : List Passage} {body cleanup : Code} {value unused : Operand} :
    Within part ps body →
    Within part (ps ++ [.region cleanup]) (.ensure body value cleanup unused)
  | cleanup {ps : List Passage} {body cleanup : Code} {value unused : Operand} :
    Within part ps cleanup → Within part ps (.ensure body value cleanup unused)
  | rescued {ps : List Passage} {body handler : Code} {value handled : Operand} :
    Within part ps body → Within part ps (.rescue body value handler handled)
  | handler {ps : List Passage} {body handler : Code} {value handled : Operand} :
    Within part ps handler → Within part (ps ++ [.handler]) (.rescue body value handler handled)
  | block {ps : List Passage} {method : Symbol} {body : Code} :
    Within part ps body → Within part (ps ++ [.scope]) (.block method body)
  | nested {ps : List Passage} {kind : ScopeKind} {name : Symbol} {body : Code} :
    Within part ps body → Within part (ps ++ [.scope]) (.nested kind name body)

open Session TrailM

/-- The frame holds what this cleanup was built to. -/
def EnsureFrame.Built (frame : EnsureFrame) (cleanup : Code) : Prop :=
  ∃ place s h t k, TrailM.Runs (cleanup.build place) s h () t k ∧ s.Emits t frame.instrs

/-- What redo and retry ask of a builder. -/
structure Builder.Around where
  loops : List LoopFrame
  ensures : List EnsureFrame
  rescues : List RescueFrame

def Builder.around (b : Builder) : Builder.Around := ⟨b.loops, b.ensures, b.rescues⟩

theorem Builder.SameStacks.around_eq {b c : Builder} (h : b.SameStacks c) : c.around = b.around := by
  rw [Builder.around, h.loops, h.ensures, h.rescues, Builder.around]

namespace Session

variable {s t u : Session} {xs : List Instr}

/-- Loops, labels and ensure bodies that are begun from `s` on have other numbers than before. -/
structure Precedes (s t : Session) : Prop where
  nextLoop : s.builder.nextLoop ≤ t.builder.nextLoop
  labels : s.labels ≤ t.labels
  bodies : ∀ f ∈ t.builder.ensureBodies,
    (∃ g ∈ s.builder.ensureBodies, g.bodyStart = f.bodyStart) ∨
      s.labels ≤ f.bodyStart.index.toNat ∧ f.bodyStart.index.toNat < t.labels

/-- The same constructs are around. -/
structure Rests (s t : Session) : Prop extends s.Precedes t where
  around : t.builder.around = s.builder.around

theorem Precedes.trans (h : s.Precedes t) (h' : t.Precedes u) : s.Precedes u where
  nextLoop := h.nextLoop.trans h'.nextLoop
  labels := h.labels.trans h'.labels
  bodies f hf := by
    rcases h'.bodies f hf with ⟨g, hg, heq⟩ | ⟨hge, hlt⟩
    · rcases h.bodies g hg with ⟨g', hg', heq'⟩ | ⟨hge, hlt⟩
      · exact .inl ⟨g', hg', heq'.trans heq⟩
      · exact .inr ⟨heq ▸ hge, heq ▸ hlt.trans_le h'.labels⟩
    · exact .inr ⟨h.labels.trans hge, hlt⟩

/-- Whatever is added, the same bodies are being built. -/
theorem Adds.bodyStart_mem (h : s.Adds t xs) {f : EnsureFrame} (hf : f ∈ t.builder.ensureBodies) :
    ∃ g ∈ s.builder.ensureBodies, g.bodyStart = f.bodyStart := by
  rw [h.bodies] at hf
  cases hbodies : s.builder.ensureBodies with
  | nil =>
    rw [hbodies] at hf
    cases hf
  | cons g gs =>
    rw [hbodies] at hf
    rcases List.mem_cons.mp hf with rfl | hf
    · exact ⟨g, List.mem_cons_self, rfl⟩
    · exact ⟨f, List.mem_cons_of_mem _ hf, rfl⟩

theorem Adds.precedes (h : s.Adds t xs) : s.Precedes t :=
  ⟨h.nextLoop, h.labels_le, fun _ hf => .inl (h.bodyStart_mem hf)⟩

theorem Rests.trans (h : s.Rests t) (h' : t.Rests u) : s.Rests u :=
  ⟨h.toPrecedes.trans h'.toPrecedes, h'.around.trans h.around⟩

theorem Emits.rests (h : s.Emits t xs) : s.Rests t := ⟨h.precedes, h.sameStacks.around_eq⟩

theorem Rests.refl (s : Session) : s.Rests s := (Emits.refl s).rests

/-- The start of the frame's body lies between those of the bodies begun before and after. -/
theorem NewEnsure.bodyStart_bounds {frame : EnsureFrame} (h : s.NewEnsure t frame) :
    s.labels ≤ frame.bodyStart.index.toNat ∧ frame.bodyStart.index.toNat < t.labels :=
  ⟨h.ge.trans h.lt_bodyStart.le, h.lt_bodyEnd.trans (h.lt_dummyRescue.trans h.lt)⟩

theorem NewEnsure.rests {frame : EnsureFrame} (h : s.NewEnsure t frame) :
    s.Rests (t.entering frame) where
  nextLoop := h.nextLoop
  labels := h.labels_le
  bodies f hf := by
    rcases List.mem_cons.mp hf with rfl | hf
    · exact .inr h.bodyStart_bounds
    · exact h.precedes.bodies f hf
  around := h.sameStacks.around_eq

end Session

namespace Passage

/-- The passage is entered: its construct is around, and it is new. -/
inductive Enters (s : Session) : Passage → Session → Prop
  | iteration {t : Session} {frame : LoopFrame} {xs : List Instr} : s.Adds t xs →
    s.builder.nextLoop ≤ frame.id.number → frame.id.number < t.builder.nextLoop →
    t.builder.around = { s.builder.around with loops := frame :: s.builder.loops } →
      Enters s iteration t
  | handler {t : Session} {frame : RescueFrame} {xs : List Instr} : s.Adds t xs →
    t.builder.around = { s.builder.around with rescues := frame :: s.builder.rescues } →
      Enters s handler t
  | region {t : Session} {frame : EnsureFrame} {cleanup : Code} {xs : List Instr} : s.Adds t xs →
    frame.Built cleanup → frame.innermostLoop = s.builder.currentLoop.map (·.id) →
    s.labels ≤ frame.bodyStart.index.toNat → frame.bodyStart.index.toNat < t.labels →
    t.builder.around = { s.builder.around with ensures := frame :: s.builder.ensures } →
      Enters s (.region cleanup) t
  | scope {t : Session} : t.builder.Fresh → Enters s scope t

/-- The way through the passages, the last one of which comes first. -/
inductive Leads (s : Session) : List Passage → Session → Prop
  | here {t : Session} : s.Rests t → Leads s [] t
  | enter {ps : List Passage} {p : Passage} {t u v : Session} :
    Leads s ps t → Enters t p u → u.Rests v → Leads s (p :: ps) v

variable {ps : List Passage} {p : Passage} {s t u : Session}

theorem Enters.leads (hst : Enters s p t) (h : Leads t ps u) : Leads s (ps ++ [p]) u := by
  induction h with
  | here hrests => exact .enter (.here (.refl s)) hst hrests
  | enter _ henters hrests ih => exact .enter ih henters hrests

theorem Leads.of_rests (hst : s.Rests t) (h : Leads t ps u) : Leads s ps u := by
  induction h with
  | here hrests => exact .here (hst.trans hrests)
  | enter _ henters hrests ih => exact .enter ih henters hrests

end Passage

/-- The part is built where a session was noted that the passages lead to. -/
def Session.Meets (s : Session) (part : Code) (ps : List Passage) (k : Trail) : Prop :=
  ∃ p ∈ k.points, ∃ h v l, TrailM.Runs (part.build p.1) p.2 h () v l ∧ Passage.Leads s ps p.2

namespace Session.Meets

variable {s t : Session} {part : Code} {ps : List Passage} {q : Passage} {xs : List Instr}
  {k k' : Trail}

theorem later (h : s.Meets part ps k) (hk : k.points ⊆ k'.points) : s.Meets part ps k' := by
  obtain ⟨p, hp, hruns⟩ := h
  exact ⟨p, hk hp, hruns⟩

theorem of_rests (ht : s.Rests t) (h : t.Meets part ps k) : s.Meets part ps k := by
  obtain ⟨p, hp, h, v, l, hrun, hleads⟩ := h
  exact ⟨p, hp, h, v, l, hrun, hleads.of_rests ht⟩

theorem of_emits (ht : s.Emits t xs) (h : t.Meets part ps k) : s.Meets part ps k :=
  h.of_rests ht.rests

theorem entering (ht : Passage.Enters s q t) (h : t.Meets part ps k) :
    s.Meets part (ps ++ [q]) k := by
  obtain ⟨p, hp, h, v, l, hrun, hleads⟩ := h
  exact ⟨p, hp, h, v, l, hrun, ht.leads hleads⟩

end Session.Meets

namespace Code

variable {part : Code} {ps : List Passage} {s : Session} {h : Trail}

theorem builds_run (c : Code) (place : Nesting) :
    Builds (c.build place) s h (fun _ => True) fun _ t k _ =>
      Runs (c.build place) s h () t k ∧ h.points ⊆ k.points where
  result hrun := by
    have hvisits := c.stays_build (J := fun _ _ => True) ⟨fun _ _ => trivial, fun _ => trivial,
      fun _ => trivial, fun _ _ => trivial, fun _ _ => trivial⟩ place (s := s) (h := h) trivial
    obtain ⟨xs, hxs, hk⟩ := hvisits.result hrun
    exact ⟨xs, hxs, hrun, hk⟩
  points _ _ := .inr trivial

/-- The sessions that were noted before stay noted. -/
abbrev Notes (s : Session) (h : Trail) (x : TrailM Unit) : Prop :=
  x.Builds s h (fun _ => True) fun _ _ k _ => h.points ⊆ k.points

theorem notes_build (c : Code) (place : Nesting) : Notes s h (c.build place) :=
  Builds.mono (builds_run c place) fun _ hrun => hrun.2

/-- Building meets the part. -/
abbrev Finds (part : Code) (ps : List Passage) (s : Session) (h : Trail) (x : TrailM Unit) : Prop :=
  x.Builds s h (fun _ => True) fun _ _ k _ => s.Meets part ps k

theorem finds_first {x y : TrailM Unit} (hx : Finds part ps s h x) (hy : ∀ t k, Notes t k y) :
    Finds part ps s h (do x; y) :=
  Builds.bind (Builds.mono hx fun _ hmeets => Builds.mono (hy _ _) fun _ hk => hmeets.later hk)

theorem finds_rest {x y : TrailM Unit} (hx : Notes s h x) (hy : ∀ t k, Finds part ps t k y) :
    Finds part ps s h (do x; y) :=
  Builds.bind (Builds.mono hx fun hxs _ => Builds.mono (hy _ _) fun _ hmeets => hmeets.of_emits hxs)

theorem enters_loop {t : Session} {frame : LoopFrame} {setResult : Label}
    (ht : s.OpensLoop t frame setResult) : Passage.Enters s .iteration t := by
  refine .iteration ht.toAdds ht.id_ge ht.id_lt ?_
  rw [Builder.around, ht.loops, ht.ensures, ht.rescues, Builder.around]

theorem finds_repeated {body : Nat → TrailM Unit} {i start count : Nat} (hstart : start ≤ i)
    (hi : i < start + count) (hfinds : ∀ t k, Finds part ps t k (body i))
    (hbody : ∀ j t k, Notes t k (body j)) :
    Finds part ps s h (BuildT.repeated body start count) := by
  have hall : ∀ count start t k, Notes t k (BuildT.repeated body start count) := by
    intro count
    induction count with
    | zero => exact fun _ _ _ => Builds.pure (List.Subset.refl _)
    | succ count ih =>
      exact fun start t k => Builds.bind (Builds.mono (hbody start t k) fun _ hk =>
        Builds.mono (ih _ _ _) fun _ hk' => List.Subset.trans hk hk')
  induction count generalizing start s h with
  | zero => omega
  | succ count ih =>
    by_cases he : start = i
    · subst he
      exact finds_first (hfinds s h) fun t k => hall count _ t k
    · exact finds_rest (hbody start s h) fun t k => ih (by omega) (by omega)

theorem finds_then_done {α : Type} {x : TrailM α}
    (hx : x.Builds s h (fun _ => True) fun _ _ k _ => s.Meets part ps k) :
    Finds part ps s h (do let _ ← x) :=
  Builds.andThen hx fun hxs hmeets => Yields.pure ⟨_, hxs, hmeets⟩

section Constructs

variable {place : Nesting} {condition body cleanup handler : Code}
  {value unused handled : Operand} {goOn testFirst : Bool}

theorem finds_condition (hfinds : ∀ s h, Finds part ps s h (condition.build place)) :
    Finds part (ps ++ [.iteration]) s h ((loop condition value body goOn testFirst).build place) := by
  refine finds_then_done ?_
  cases testFirst with
  | true =>
    refine builds_loop_testFirst fun hopen => ?_
    refine builds_value (Builds.mono (hfinds _ _) fun _ hmeets => fun _ _ => ?_)
    exact Builds.mono (notes_build body place) fun _ hk _ _ =>
      (hmeets.later hk).entering (enters_loop hopen)
  | false =>
    refine builds_loop_testLast fun hopen hstart => ?_
    refine Builds.mono (notes_build body place) fun hxs _ => fun hnext => ?_
    refine builds_value (Builds.mono (hfinds _ _) fun _ hmeets _ _ _ _ => ?_)
    exact (hmeets.of_emits ((hstart.trans hxs).trans hnext)).entering (enters_loop hopen)

theorem finds_iteration (hfinds : ∀ s h, Finds part ps s h (body.build place)) :
    Finds part (ps ++ [.iteration]) s h ((loop condition value body goOn testFirst).build place) := by
  refine finds_then_done ?_
  cases testFirst with
  | true =>
    refine builds_loop_testFirst fun hopen => ?_
    refine builds_value (Builds.mono (notes_build condition place) fun hxs _ => fun _ hstart => ?_)
    exact Builds.mono (hfinds _ _) fun _ hmeets _ _ =>
      (hmeets.of_emits (hxs.trans hstart)).entering (enters_loop hopen)
  | false =>
    refine builds_loop_testLast fun hopen hstart => ?_
    refine Builds.mono (hfinds _ _) fun _ hmeets => fun _ => ?_
    refine builds_value (Builds.mono (notes_build condition place) fun _ hk _ _ _ _ => ?_)
    exact ((hmeets.later hk).of_emits hstart).entering (enters_loop hopen)

theorem finds_region (hfinds : ∀ s h, Finds part ps s h (body.build place)) :
    Finds part (ps ++ [.region cleanup]) s h ((ensure body value cleanup unused).build place) := by
  refine finds_then_done (builds_ensure fun {frame s₁} hframe => ?_)
  -- the frame holds what was built of the cleanup, which comes before the body
  refine builds_value (Builds.mono (builds_run cleanup place) fun {_ t _ ys} hys hrun => ?_)
  intro result s₂ hopen
  refine builds_value (Builds.mono (hfinds _ _) fun _ hmeets _ _ _ _ _ _ _ _ => ?_)
  have hbuilt : (frame.filled ys).Built cleanup := ⟨place, _, _, _, _, hrun.1, hys⟩
  have hbefore := hframe.toEmits.trans hys.leaving.1
  have hbounds := hframe.bodyStart_bounds
  refine hmeets.entering (.region (hbefore.toAdds.trans hopen.toAdds) hbuilt
    hframe.innermostLoop_eq hbounds.1 ?_ ?_)
  · exact hbounds.2.trans_le (hys.leaving.1.toAdds.trans hopen.toAdds).labels_le
  · rw [Builder.around, hopen.loops, hopen.ensures, hopen.rescues, hbefore.sameStacks.loops,
      hbefore.sameStacks.ensures, hbefore.sameStacks.rescues, Builder.around]

theorem finds_cleanup (hfinds : ∀ s h, Finds part ps s h (cleanup.build place)) :
    Finds part ps s h ((ensure body value cleanup unused).build place) := by
  refine finds_then_done (builds_ensure fun {frame s₁} hframe => ?_)
  refine builds_value (Builds.mono (hfinds _ _) fun _ hmeets result _ _ => ?_)
  refine builds_value (Builds.mono (notes_build body place) fun _ hk _ _ _ _ _ _ _ _ => ?_)
  exact (hmeets.later hk).of_rests hframe.rests

theorem finds_rescued (hfinds : ∀ s h, Finds part ps s h (body.build place)) :
    Finds part ps s h ((rescue body value handler handled).build place) := by
  refine finds_then_done (builds_rescue fun result _ hopen => ?_)
  refine builds_value (Builds.mono (hfinds _ _) fun _ hmeets exception _ _ => ?_)
  refine builds_value (Builds.mono (notes_build handler place) fun _ hk _ _ => ?_)
  refine (hmeets.later hk).of_rests ⟨hopen.precedes, ?_⟩
  rw [Builder.around, hopen.loops, hopen.ensures, hopen.rescues, Builder.around]

theorem finds_handler (hfinds : ∀ s h, Finds part ps s h (handler.build place)) :
    Finds part (ps ++ [.handler]) s h ((rescue body value handler handled).build place) := by
  refine finds_then_done (builds_rescue fun {frame _ _} result _ hopen => ?_)
  refine builds_value (Builds.mono (notes_build body place) fun hxs _ exception _ henter => ?_)
  refine builds_value (Builds.mono (hfinds _ _) fun _ hmeets _ _ => ?_)
  refine hmeets.entering (.handler ((hopen.toAdds.trans hxs.toAdds).trans henter.toAdds)
    (?_ : _ = { s.builder.around with rescues := frame :: s.builder.rescues }))
  -- the rescue is pushed where its body has left the stacks as they were
  have hsame := hxs.sameStacks
  rw [Builder.around, henter.loops, henter.ensures, henter.rescues, hsame.loops, hsame.ensures,
    hsame.rescues, hopen.loops, hopen.ensures, hopen.rescues, Builder.around]

end Constructs

theorem finds_build {c : Code} (hw : (Code.seq .mark part).Within ps c) :
    ∀ place s h, Finds part ps s h (c.build place) := by
  induction hw with
  | here =>
    intro place s h
    refine Builds.bind (Yields.mark trivial ⟨[], .refl s, ?_⟩)
    refine Builds.mono (builds_run part place) fun _ hrun => ?_
    exact ⟨(place, s), hrun.2 List.mem_cons_self, _, _, _, hrun.1, .here (.refl s)⟩
  | @first ps first rest _ ih =>
    exact fun place s h => finds_first (ih place s h) fun t k => notes_build rest place
  | @rest ps first rest _ ih =>
    exact fun place s h => finds_rest (notes_build first place) fun t k => ih place t k
  | @yes ps value test yes no _ ih =>
    refine fun place s h => builds_ifElse fun helse hend hbranch => ?_
    have hs := (helse.toEmits.trans hend.toEmits).trans hbranch
    refine Builds.mono (ih place _ h) fun _ hmeets => fun _ => ?_
    exact Builds.mono (notes_build no place) fun _ hk _ _ => (hmeets.later hk).of_emits hs
  | @no ps value test yes no _ ih =>
    refine fun place s h => builds_ifElse fun helse hend hbranch => ?_
    have hs := (helse.toEmits.trans hend.toEmits).trans hbranch
    refine Builds.mono (notes_build yes place) fun hxs _ => fun hmiddle => ?_
    exact Builds.mono (ih place _ _) fun _ hmeets _ _ =>
      hmeets.of_emits ((hs.trans hxs).trans hmiddle)
  | ifNot _ ih =>
    refine fun place s h => builds_ifNot fun hlabel _ hbranch => ?_
    exact Builds.mono (ih place _ h) fun _ hmeets _ _ =>
      hmeets.of_emits (hlabel.toEmits.trans hbranch)
  | @forTest ps test increment body _ ih =>
    refine fun place s h => builds_forLoop fun htop hbottom hafter hlabel => ?_
    have hs := ((htop.toEmits.trans hbottom.toEmits).trans hafter.toEmits).trans hlabel
    refine Yields.hand_bind (Builds.mono (ih place _ _) fun _ hmeets => ?_)
    refine Yields.hand_bind (Builds.mono (notes_build body place) fun _ hk => fun _ => ?_)
    exact Builds.mono (notes_build increment place) fun _ hk' _ _ =>
      ((hmeets.later hk).later hk').of_emits hs
  | @forIncrement ps test increment body _ ih =>
    refine fun place s h => builds_forLoop fun htop hbottom hafter hlabel => ?_
    have hs := ((htop.toEmits.trans hbottom.toEmits).trans hafter.toEmits).trans hlabel
    refine Yields.hand_bind (Builds.mono (notes_build test place) fun hxs _ => ?_)
    refine Yields.hand_bind (Builds.mono (notes_build body place) fun hys _ => fun hmiddle => ?_)
    exact Builds.mono (ih place _ _) fun _ hmeets _ _ =>
      hmeets.of_emits (((hs.trans hxs).trans hys).trans hmiddle)
  | @forBody ps test increment body _ ih =>
    refine fun place s h => builds_forLoop fun htop hbottom hafter hlabel => ?_
    have hs := ((htop.toEmits.trans hbottom.toEmits).trans hafter.toEmits).trans hlabel
    refine Yields.hand_bind (Builds.mono (notes_build test place) fun hxs _ => ?_)
    refine Yields.hand_bind (Builds.mono (ih place _ _) fun _ hmeets => fun _ => ?_)
    exact Builds.mono (notes_build increment place) fun _ hk _ _ =>
      (hmeets.later hk).of_emits (hs.trans hxs)
  | @times ps count i body hi _ ih =>
    refine fun place s h => builds_labelled fun hlabel => ?_
    refine Builds.mono (finds_repeated (Nat.zero_le i) (by omega)
      (fun t k => Yields.hand_bind (ih place t _))
      fun j t k => Yields.hand_bind (notes_build (body j) place)) fun _ hmeets _ _ =>
        hmeets.of_emits hlabel.toEmits
  | labelled _ ih =>
    refine fun place s h => builds_labelled fun hlabel => ?_
    exact Yields.hand_bind (Builds.mono (ih place _ _) fun _ hmeets _ _ =>
      hmeets.of_emits hlabel.toEmits)
  | condition _ ih => exact fun place s h => finds_condition (ih place)
  | iteration _ ih => exact fun place s h => finds_iteration (ih place)
  | region _ ih => exact fun place s h => finds_region (ih place)
  | cleanup _ ih => exact fun place s h => finds_cleanup (ih place)
  | rescued _ ih => exact fun place s h => finds_rescued (ih place)
  | handler _ ih => exact fun place s h => finds_handler (ih place)
  | block _ ih =>
    refine fun place s h => builds_apart (builds_block fun hopen => ?_)
    exact Builds.mono (ih _ _ _) fun _ hmeets _ _ _ _ => hmeets.entering (.scope hopen.fresh)
  | nested _ ih =>
    refine fun place s h => builds_apart (builds_child fun hopen => ?_)
    exact Builds.mono (ih _ _ _) fun _ hmeets _ _ _ _ => hmeets.entering (.scope hopen.fresh)

end Code

/-- The two jumps back. -/
inductive Restart where
  /-- Starts the iteration again, or the body of the scope. -/
  | redo
  /-- Leaves the handler and runs the rescued body again. -/
  | retry

namespace Restart

def code : Restart → Code
  | redo => .redo
  | retry => .retry

def run : Restart → SessionM Unit
  | redo => Session.redo
  | retry => Session.retry

/-- The jump goes back no further than to where the passage was entered. -/
def ends : Restart → Passage → Bool
  | _, .scope => true
  | redo, .iteration => true
  | retry, .handler => true
  | _, _ => false

/-- The cleanups of the regions that the jump leaves, innermost first. -/
def left (r : Restart) (ps : List Passage) : List Code :=
  (ps.takeWhile fun p => !r.ends p).filterMap Passage.cleanup?

/-- The jump goes to the start of the innermost loop or of the scope, or to that of what the innermost
handler stands by. -/
inductive Jumps (a : Builder.Around) : Restart → List Instr → Prop
  | iteration {frame : LoopFrame} : a.loops.head? = some frame →
    Jumps a redo [.jump frame.iterStart]
  | scope {start : Label} : a.loops = [] → Jumps a redo [.threadPoll, .jump start]
  | rescued {frame : RescueFrame} : a.rescues.head? = some frame →
    Jumps a retry [.threadPoll, .putGlobal BuildT.currentException frame.savedException,
      .jump frame.entry]

theorem Jumps.not_mem_regionStart {a : Builder.Around} {r : Restart} {xs : List Instr} {l : Label}
    (h : Jumps a r xs) : .regionStart l ∉ xs := by
  cases h <;> simp

theorem jumps_of_runs {r : Restart} {s t : Session} (h : s.Runs r.run () t) :
    ∃ xs, s.Emits t xs ∧ Jumps s.builder.around r xs := by
  cases r with
  | redo =>
    obtain ⟨xs, hxs⟩ := redoes_of_redo h
    refine ⟨xs, hxs.emits, ?_⟩
    cases hxs with
    | loop hframe _ => exact .iteration hframe
    | block hloops _ _ => exact .scope hloops
  | retry =>
    obtain ⟨frame, hframe, hemits⟩ := emits_of_retry h
    exact ⟨_, hemits, .rescued hframe⟩

end Restart

/-- Copies start regions unless there is nothing to copy. -/
theorem AreCopies.infix_iff {frames : List EnsureFrame} {xs : List Instr}
    (hxs : ∀ l, .regionStart l ∉ xs) :
    (∃ cs, AreCopies frames cs ∧ cs <:+: xs) ↔ ∀ f ∈ frames, f.instrs = [] := by
  constructor
  · rintro ⟨cs, hcopies, hcs⟩
    replace hcs : ∀ l, .regionStart l ∉ cs := fun l hl => hxs l (hcs.subset hl)
    clear hxs
    induction hcopies with
    | nil => exact fun _ hf => nomatch hf
    | @cons frame frames xs ys hcopy _ ih =>
      refine List.forall_mem_cons.mpr ⟨?_, ih fun l hl => hcs l (List.mem_append_right _ hl)⟩
      cases hcopy with
      | empty hnil => exact hnil
      | @full ρ _ _ =>
        have hstart : .regionStart frame.rescuer ∈ frame.copy ρ :=
          List.mem_cons_of_mem _ List.mem_cons_self
        exact absurd (List.mem_append_left _ hstart) (hcs frame.rescuer)
  · intro hframes
    refine ⟨[], ?_, List.nil_infix⟩
    induction frames with
    | nil => exact .nil
    | cons frame frames ih =>
      exact .cons (.empty (hframes _ List.mem_cons_self))
        (ih fun f hf => hframes f (List.mem_cons_of_mem _ hf))

theorem Restart.left_cons {r : Restart} {p : Passage} {ps : List Passage} (hp : r.ends p = false) :
    r.left (p :: ps) = p.cleanup?.toList ++ r.left ps := by
  rw [left, List.takeWhile_cons_of_pos (by rw [hp, Bool.not_false])]
  cases p <;> rfl

/-- The innermost ensures are those whose regions were entered on the way. -/
theorem Passage.ensures_of_leads {r : Restart} {ps : List Passage} {s t : Session}
    (h : Passage.Leads s ps t) : ∃ left outer, t.builder.ensures = left ++ outer ∧
      List.Forall₂ EnsureFrame.Built left (r.left ps) ∧
      ((∀ p ∈ ps, r.ends p = false) → outer = s.builder.ensures) := by
  induction h with
  | here hrests =>
    exact ⟨[], s.builder.ensures, congrArg Builder.Around.ensures hrests.around, .nil, fun _ => rfl⟩
  | @enter ps p t u v _ henters hrests ih =>
    have hv : v.builder.ensures = u.builder.ensures :=
      congrArg Builder.Around.ensures hrests.around
    cases hp : r.ends p with
    | true =>
      have hleft : r.left (p :: ps) = [] := by
        rw [Restart.left, List.takeWhile_cons_of_neg (by rw [hp]; decide), List.filterMap_nil]
      refine ⟨[], v.builder.ensures, rfl, hleft ▸ .nil, fun hps => ?_⟩
      cases hp.symm.trans (hps p List.mem_cons_self)
    | false =>
      obtain ⟨left, outer, hensures, hbuilt, houter⟩ := ih
      have houter : (∀ q ∈ p :: ps, r.ends q = false) → outer = s.builder.ensures :=
        fun hps => houter fun q hq => hps q (List.mem_cons_of_mem _ hq)
      rw [Restart.left_cons hp, hv]
      cases henters with
      | iteration _ _ _ haround | handler _ haround =>
        have hu := congrArg Builder.Around.ensures haround
        exact ⟨left, outer, hu.trans hensures, hbuilt, houter⟩
      | @region _ frame cleanup _ _ hframe _ _ _ haround =>
        have hu := congrArg Builder.Around.ensures haround
        exact ⟨frame :: left, outer, hu.trans (congrArg _ hensures), .cons hframe hbuilt, houter⟩
      | scope => cases hp

section Whole

variable {r : Restart} {ps : List Passage} {c : Code} {place : Nesting} {s t : Session}
  {h k : Trail}

/-- Whatever is built, a jump back from where the session was noted leaves the regions of the ensures
that were entered since, and that is all that its code does: no body is copied, so that copies of all
that are left can be found in it just if they are all empty. -/
theorem restarts_of_build (hw : (Code.seq .mark r.code).Within ps c)
    (hbuild : Runs (c.build place) s h () t k) :
    ∃ p ∈ k.points, ∃ left outer v xs, p.2.builder.ensures = left ++ outer ∧
      List.Forall₂ EnsureFrame.Built left (r.left ps) ∧
      ((∀ q ∈ ps, r.ends q = false) → outer = s.builder.ensures) ∧
      p.2.Runs r.run () v ∧ p.2.Emits v xs ∧ Restart.Jumps p.2.builder.around r xs ∧
      ((∃ cs, AreCopies left cs ∧ cs <:+: xs) ↔ ∀ f ∈ left, f.instrs = []) := by
  obtain ⟨-, -, p, hp, h', v, l, hrun, hleads⟩ := (Code.finds_build hw place s h).result hbuild
  obtain ⟨left, outer, hensures, hbuilt, houter⟩ := Passage.ensures_of_leads (r := r) hleads
  have hrun : p.2.Runs r.run () v := by
    cases r <;> exact (runs_liftM.mp hrun).1
  obtain ⟨xs, hxs, hjumps⟩ := Restart.jumps_of_runs hrun
  exact ⟨p, hp, left, outer, v, xs, hensures, hbuilt, houter, hrun, hxs, hjumps,
    AreCopies.infix_iff fun _ => hjumps.not_mem_regionStart⟩

/-- The redo leaves a region whose cleanup calls a method. -/
def Code.redoInRegion : Code :=
  .loop .done (.boolean true)
    (.ensure (.seq .mark .redo) .nil
      (.call .self .normal (.var .self) ⟨"close"⟩ [] .nullBlock ∅) .nil) true true

theorem restarts_of_build_redoInRegion : ∃ t k cleanup,
    (Code.seq .mark Restart.redo.code).Within [.region cleanup, .iteration] Code.redoInRegion ∧
    Runs (Code.redoInRegion.build ⟨.method, []⟩) (single .method) ⟨[], []⟩ () t k ∧
    ∃ p ∈ k.points, ∃ left outer v xs, p.2.builder.ensures = left ++ outer ∧
      List.Forall₂ EnsureFrame.Built left [cleanup] ∧
      p.2.Runs Session.redo () v ∧ p.2.Emits v xs ∧
      Restart.Jumps p.2.builder.around .redo xs ∧ ¬ ∃ cs, AreCopies left cs ∧ cs <:+: xs := by
  have hw : (Code.seq .mark Restart.redo.code).Within _ Code.redoInRegion :=
    .iteration (.region .here)
  have hbuild := TrailM.runs_of_ok (x := Code.redoInRegion.build ⟨.method, []⟩)
    (s := single .method) (h := ⟨[], []⟩) (a := ()) (by decide +kernel)
  obtain ⟨p, hp, left, outer, v, xs, hensures, hbuilt, -, hrun, hxs, hjumps, hiff⟩ :=
    restarts_of_build hw hbuild
  refine ⟨_, _, _, hw, hbuild, p, hp, left, outer, v, xs, hensures, hbuilt, hrun, hxs, hjumps, ?_⟩
  have hfull : ∀ p ∈ (Code.redoInRegion.build ⟨.method, []⟩ (single .method) ⟨[], []⟩).2.points,
      ∀ f ∈ p.2.builder.ensures, f.instrs ≠ [] := by decide +kernel
  rw [hiff]
  cases hbuilt with
  | @cons frame _ left _ _ _ =>
    have hframe : frame ∈ p.2.builder.ensures := hensures ▸ List.mem_cons_self
    exact fun hempty => hfull p hp frame hframe (hempty frame List.mem_cons_self)

end Whole

end ScopeIR
