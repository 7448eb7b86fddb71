import ScopeIR.Proofs.Marks

/-! What reaches a scope while its builder works on an ensure body. Instructions wait in the body, and
the listener hears nothing of the scope. Only few operations get past the body. -/

namespace ScopeIR

namespace Registry

variable {α : Type} {g g' : Registry} {id : ScopeId}

/-- What the listener has heard so far. -/
def heard (g : Registry) : List Notice := g.journal.notices

theorem heard_of_record {e : Event} {u : Unit} (h : g.Runs (RegistryM.record e) u g') :
    g'.heard = g.heard ++ e.notice?.toList := by
  obtain rfl := runs_record.mp h
  simp only [heard, Journal.notices, Array.toList_push, List.filterMap_append,
    List.filterMap_cons, List.filterMap_nil]
  cases e.notice? <;> rfl

theorem heard_recorded {e : Event} (he : e.isQuiet) : (g.recorded e).heard = g.heard := by
  have hnotice : e.notice? = none := by
    cases e with
    | instrAdded => cases he
    | _ => rfl
  have hheard := heard_of_record (g := g) (u := ()) (runs_record.mpr (rfl : g.recorded e = _))
  rw [hheard, hnotice, Option.toList_none, List.append_nil]

theorem heard_of_updateScope {f : Scope → Scope} {u : Unit}
    (h : g.Runs (RegistryM.updateScope id f) u g') : g'.heard = g.heard := by
  obtain ⟨_, -, rfl⟩ := runs_updateScope.mp h
  rfl

theorem heard_of_newLabel {stem : String} {l : Label}
    (h : g.Runs (RegistryM.newLabel id stem) l g') : g'.heard = g.heard := by
  obtain ⟨_, _, -, -, -, rfl⟩ := eq_of_newLabel h
  rfl

theorem heard_of_nextTemp {i : UInt64} (h : g.Runs (RegistryM.nextTemp id) i g') :
    g'.heard = g.heard := by
  obtain ⟨_, _, -, -, -, rfl⟩ := eq_of_nextTemp h
  rfl

theorem heard_of_newScope {kind : ScopeKind} {name : Symbol} {file : String} {line : Int32}
    {parent : Option ScopeId} (h : g.Runs (RegistryM.newScope kind name file line parent) id g') :
    g'.heard = g.heard := by
  obtain ⟨next, closureId, refined, w, -, -, -, hw, rfl⟩ := eq_of_newScope h
  have hadopts : w.heard = g.heard := by
    cases hw with
    | root | apart => rfl
    | closure => rfl
  rw [← hadopts]
  exact (heard_of_record (u := ()) (runs_record.mpr rfl)).trans (List.append_nil _)

theorem heard_of_openBuilder {borrowsTemps : Bool} {coverage : Coverage} {b : Builder}
    (h : g.Runs (Session.openBuilder id borrowsTemps coverage) b g') : g'.heard = g.heard := by
  obtain ⟨_, -, -, rfl⟩ := Session.eq_of_openBuilder h
  exact (heard_of_record (u := ()) (runs_record.mpr rfl)).trans (List.append_nil _)

end Registry

namespace Session

variable {α β : Type} {s t u : Session}

/-- Listeners hear of no other scope, and a start label stays. -/
structure Notifies (s t : Session) : Prop where
  scope : t.builder.scope = s.builder.scope
  start : s.builder.closureStart.isSome → t.builder.closureStart.isSome
  heard : ∃ ns, t.registry.heard = s.registry.heard ++ ns ∧ ∀ n ∈ ns, n.scope = s.builder.scope

theorem Notifies.refl (s : Session) : s.Notifies s :=
  ⟨rfl, id, [], (List.append_nil _).symm, fun _ h => nomatch h⟩

theorem Notifies.trans (h : s.Notifies t) (h' : t.Notifies u) : s.Notifies u where
  scope := h'.scope.trans h.scope
  start hs := h'.start (h.start hs)
  heard := by
    obtain ⟨ns, hns, hscope⟩ := h.heard
    obtain ⟨ns', hns', hscope'⟩ := h'.heard
    refine ⟨ns ++ ns', by rw [hns', hns, List.append_assoc], fun n hn => ?_⟩
    rcases List.mem_append.mp hn with hn | hn
    · exact hscope n hn
    · rw [hscope' n hn, h.scope]

/-- While an ensure body is at work, nothing gets past it but these flags, and these instructions,
which come to stand in front of the scope's own list. -/
structure Bypasses (gained : ScopeFlags) (front : List Instr) (s t : Session) : Prop extends
    s.Notifies t where
  flags : s.builder.ensureBodies ≠ [] → t.builder.flags = s.builder.flags ∪ gained
  list : s.builder.ensureBodies ≠ [] → t.builder.instrs.toList = front ++ s.builder.instrs.toList
  quiet : s.builder.ensureBodies ≠ [] →
    t.registry.heard = s.registry.heard ++ front.reverse.map (⟨s.builder.scope, ·, 0⟩)

/-- Whatever is emitted goes to the ensure body at work, which stays the one at work. -/
structure Redirects (s t : Session) : Prop extends s.Bypasses ∅ [] t where
  bodies : s.builder.ensureBodies ≠ [] → t.builder.ensureBodies ≠ []

namespace Redirects

variable {gained : ScopeFlags} {front : List Instr}

theorem bypasses_trans (h : s.Redirects t) (h' : t.Bypasses gained front u) :
    s.Bypasses gained front u where
  toNotifies := h.toNotifies.trans h'.toNotifies
  flags hs := by rw [h'.flags (h.bodies hs), h.flags hs, FlagSet.union_empty]
  list hs := by rw [h'.list (h.bodies hs), h.list hs, List.nil_append]
  quiet hs := by
    rw [h'.quiet (h.bodies hs), h.quiet hs, h.scope]
    simp only [List.reverse_nil, List.map_nil, List.append_nil]

theorem trans (h : s.Redirects t) (h' : t.Redirects u) : s.Redirects u where
  toBypasses := h.bypasses_trans h'.toBypasses
  bodies hs := h'.bodies (h.bodies hs)

/-- Nothing is redirected unless an ensure body is at work. -/
theorem of_notifies (h : s.Notifies t) (hs : s.builder.ensureBodies = []) : s.Redirects t :=
  ⟨⟨h, fun h => absurd hs h, fun h => absurd hs h, fun h => absurd hs h⟩, fun h => absurd hs h⟩

/-- A change of the builder alone that does not touch what the scope has. -/
theorem of_builder {b : Builder} (hscope : b.scope = s.builder.scope)
    (hstart : s.builder.closureStart.isSome → b.closureStart.isSome)
    (hflags : b.flags = s.builder.flags) (hlist : b.instrs = s.builder.instrs)
    (hbodies : s.builder.ensureBodies ≠ [] → b.ensureBodies ≠ []) :
    s.Redirects { s with builder := b } where
  scope := hscope
  start := hstart
  heard := (Notifies.refl s).heard
  flags _ := by rw [hflags, FlagSet.union_empty]
  list _ := congrArg Array.toList hlist
  quiet _ := (List.append_nil _).symm
  bodies := hbodies

theorem of_registry {g : Registry} (h : g.heard = s.registry.heard) :
    s.Redirects { s with registry := g } where
  toNotifies := ⟨rfl, id, [], by rw [List.append_nil]; exact h, fun _ h => nomatch h⟩
  flags _ := (FlagSet.union_empty _).symm
  list _ := rfl
  quiet _ := h.trans (List.append_nil _).symm
  bodies := id

theorem refl (s : Session) : s.Redirects s := of_registry rfl

end Redirects

/-- Changes of the registry that listeners do not hear. -/
theorem redirects_liftM {x : RegistryM α}
    (h : ∀ {a g}, s.registry.Runs x a g → g.heard = s.registry.heard) :
    s.Redirects ((liftM x : SessionM α) s).2 := by
  rw [liftM_apply]
  rcases hr : x s.registry with e | ⟨a, g⟩
  · exact .refl s
  · exact .of_registry (h hr)

/-- However the action ends, listeners hear of no other scope. -/
abbrev Notes (s : Session) (x : SessionM α) : Prop := s.Notifies (x s).2

/-- However the action ends, an ensure body at work takes what is emitted. -/
abbrev Keeps (s : Session) (x : SessionM α) : Prop := s.Redirects (x s).2

theorem notes_bind {x : SessionM α} {f : α → SessionM β} (hx : s.Notes x)
    (hf : ∀ {a t}, s.Runs x a t → t.Notes (f a)) : s.Notes (x >>= f) :=
  leads_bind (fun h _ h' => h.trans h') hx hf

theorem keeps_bind {x : SessionM α} {f : α → SessionM β} (hx : s.Keeps x)
    (hf : ∀ {a t}, s.Runs x a t → t.Keeps (f a)) : s.Keeps (x >>= f) :=
  leads_bind (fun h _ h' => h.trans h') hx hf

theorem keeps_pure {a : α} : s.Keeps (pure a) := .refl s

theorem keeps_current : s.Keeps current := .refl s

/-- A change of the builder that concerns none of these. -/
theorem keeps_updateBuilder {f : Builder → Builder} (hscope : (f s.builder).scope = s.builder.scope)
    (hstart : (f s.builder).closureStart = s.builder.closureStart)
    (hflags : (f s.builder).flags = s.builder.flags)
    (hlist : (f s.builder).instrs = s.builder.instrs)
    (hbodies : (f s.builder).ensureBodies = s.builder.ensureBodies) :
    s.Keeps (updateBuilder f) :=
  .of_builder hscope (by rw [hstart]; exact id) hflags hlist (by rw [hbodies]; exact id)

section Changes

variable {P Q : Instr → Prop} {F : ScopeFlags → Prop}

/-- Of what joins the scope's own list listeners hear. -/
theorem notifies_announce {index : Nat} {i : Instr} {b : Builder}
    (hscope : b.scope = s.builder.scope) (hstart : b.closureStart = s.builder.closureStart) :
    s.Notifies (s.announce index i b) where
  scope := hscope
  start := by
    rw [← hstart]
    exact id
  heard := by
    refine ⟨[⟨s.builder.scope, i, index⟩], ?_, fun n hn => by rw [List.mem_singleton.mp hn]⟩
    exact Registry.heard_of_record (u := ()) rfl

theorem Touch.redirects (h : s.Touch P (fun _ => False) (fun _ => False) t) : s.Redirects t := by
  cases h with
  | label hr => exact .of_registry (Registry.heard_of_newLabel hr)
  | temp hr => exact .of_registry (Registry.heard_of_nextTemp hr)
  | closure hr => exact .of_registry (Registry.heard_of_updateScope hr)
  | record he => exact .of_registry (Registry.heard_recorded he)
  | append _ hs => exact .of_notifies (notifies_announce rfl rfl) hs
  | prepend h => exact .of_notifies (notifies_announce rfl rfl) (h.elim False.elim And.right)
  | fill => exact .of_builder rfl id rfl rfl fun _ => List.cons_ne_nil _ _
  | flags h => exact h.elim
  | note hstart => exact .of_builder rfl hstart rfl rfl id

/-- What may get past a body is announced as what joins the list is. -/
theorem Touch.notifies (h : s.Touch P Q F t) : s.Notifies t := by
  cases h with
  | label hr => exact (Touch.redirects (P := P) (.label hr)).toNotifies
  | temp hr => exact (Touch.redirects (P := P) (.temp hr)).toNotifies
  | closure hr => exact (Touch.redirects (P := P) (.closure hr)).toNotifies
  | record he => exact (Touch.redirects (P := P) (.record he)).toNotifies
  | append | prepend => exact notifies_announce rfl rfl
  | fill hframes hxs => exact (Touch.redirects (.fill hframes hxs)).toNotifies
  | flags => exact ⟨rfl, id, (Notifies.refl s).heard⟩
  | note hstart => exact (Touch.redirects (P := P) (.note hstart)).toNotifies

theorem Touches.redirects
    (h : s.Touches (fun _ => True) (fun _ => False) (fun _ => False) t) : s.Redirects t := by
  induction h with
  | refl => exact .refl s
  | tail _ hstep ih => exact ih.trans hstep.redirects

theorem Touches.notifies
    (h : s.Touches (fun _ => True) (fun _ => True) (fun _ => True) t) : s.Notifies t := by
  induction h with
  | refl => exact .refl s
  | tail _ hstep ih => exact ih.trans hstep.notifies

/-- Listeners hear of no other scope from basic actions. -/
theorem Made.notes {x : SessionM α}
    (h : s.Made (fun _ => True) (fun _ => True) (fun _ => True) x) : s.Notes x :=
  (h.touches fun _ => trivial).notifies

/-- Only what is put in front and flags that are set get past the body. -/
theorem Made.keeps {x : SessionM α}
    (h : s.Made (fun _ => True) (fun _ => False) (fun _ => False) x) : s.Keeps x :=
  (h.touches fun _ => trivial).redirects

theorem keeps_newLabelNamed {stem : String} : s.Keeps (newLabelNamed stem) :=
  Made.newLabelNamed.keeps

theorem keeps_temp : s.Keeps temp := Made.temp.keeps

theorem keeps_emit {i : Instr} : s.Keeps (emit i) := (Made.emit trivial).keeps

end Changes

theorem keeps_enterEnsureBody {frame : EnsureFrame} : s.Keeps (enterEnsureBody frame) :=
  .of_builder rfl id rfl rfl fun _ => List.cons_ne_nil _ _

theorem bypasses_exitEnsureBody : s.Bypasses ∅ [] (exitEnsureBody s).2 :=
  { Redirects.refl s with }

/-- No error that could be caught comes from the action. -/
def Uncatchable (x : SessionM α) : Prop := ∀ s e t, x s ≠ (.error (.error e), t)

namespace Uncatchable

theorem bind {x : SessionM α} {f : α → SessionM β} (hx : Uncatchable x)
    (hf : ∀ a, Uncatchable (f a)) : Uncatchable (x >>= f) := by
  intro s e t he
  rw [bind_apply] at he
  split at he
  · exact hf _ _ _ _ he
  · next hfault =>
    cases he
    exact hx _ _ _ hfault

theorem pure {a : α} : Uncatchable (Pure.pure a) := fun _ _ _ he => nomatch he

theorem updateBuilder {f : Builder → Builder} : Uncatchable (updateBuilder f) :=
  fun _ _ _ he => nomatch he

theorem current : Uncatchable current := fun _ _ _ he => nomatch he

theorem temp : Uncatchable temp := by
  intro s e t he
  obtain ⟨v, hv⟩ := Workshop.runs_of_settled_temp (s := s) (t := t) (a := none) (by
    rw [Workshop.settled, he])
  cases hv.symm.trans he

theorem newLabelNamed {stem : String} : Uncatchable (newLabelNamed stem) := by
  refine bind current fun b s e t => Registry.Uncatchable.lift ?_
  refine Registry.uncatchable_bind Registry.uncatchable_scope fun x => ?_
  refine Registry.uncatchable_bind (fun g e he => ?_) fun _ => ?_
  · cases hnext : checkedAdd x.nextLabel 1 <;> rw [hnext] at he <;> cases he
  · refine Registry.uncatchable_bind ?_ fun _ _ _ he => nomatch he
    exact Registry.uncatchable_bind Registry.uncatchable_scope fun _ _ _ he => nomatch he

theorem pushLoop : Uncatchable pushLoop :=
  bind current fun _ => bind updateBuilder fun _ => bind newLabelNamed fun _ =>
    bind newLabelNamed fun _ => bind newLabelNamed fun _ => bind newLabelNamed fun _ =>
      bind temp fun _ => bind updateBuilder fun _ => bind updateBuilder fun _ => pure

theorem runs {x : SessionM α} {v : Option β} {f : α → SessionM β} (hx : Uncatchable x)
    (h : Workshop.settled (x >>= f) s = some (v, t)) :
    ∃ a u, s.Runs x a u ∧ Workshop.settled (f a) u = some (v, t) := by
  rcases Workshop.settled_bind h with ⟨e, he⟩ | h
  · exact absurd he (hx s e t)
  · exact h

end Uncatchable

section Past

variable {gained : ScopeFlags} {front : List Instr} {i : Instr}

theorem bind_of_runs {x : SessionM α} {a : α} {f : α → SessionM β} (h : s.Runs x a t) :
    (x >>= f) s = f a t := by
  rw [bind_apply, h]

theorem Redirects.of_runs {x : SessionM α} {a : α} (hx : s.Keeps x) (h : s.Runs x a t) :
    s.Redirects t := by
  rwa [Keeps, h] at hx

theorem Bypasses.of_notifies (h : s.Notifies t) (hs : s.builder.ensureBodies = []) :
    s.Bypasses gained front t :=
  ⟨h, fun h => absurd hs h, fun h => absurd hs h, fun h => absurd hs h⟩

theorem Bypasses.trans_redirects (h : s.Bypasses gained front t)
    (hbodies : s.builder.ensureBodies ≠ [] → t.builder.ensureBodies ≠ []) (h' : t.Redirects u) :
    s.Bypasses gained front u where
  toNotifies := h.toNotifies.trans h'.toNotifies
  flags hs := by rw [h'.flags (hbodies hs), h.flags hs, FlagSet.union_empty]
  list hs := by rw [h'.list (hbodies hs), h.list hs, List.nil_append]
  quiet hs := by
    rw [h'.quiet (hbodies hs), h.quiet hs]
    simp only [List.reverse_nil, List.map_nil, List.append_nil]

/-- Flags are set at once. -/
theorem bypasses_insertFlags {flags : ScopeFlags} : s.Bypasses flags [] (insertFlags flags s).2 where
  toNotifies := (touching_insertFlags trivial).notifies
  flags _ := rfl
  list _ := rfl
  quiet _ := (List.append_nil _).symm

theorem bypasses_prepend_label {l : Label} : s.Bypasses ∅ [.label l] (prepend (.label l) s).2 where
  toNotifies := notifies_announce rfl rfl
  flags _ := rfl
  list _ := Array.toList_append
  quiet _ := Registry.heard_of_record (u := ()) rfl

/-- Emitting into an ensure body cannot fail. -/
theorem runs_emit_inside (hs : s.builder.ensureBodies ≠ []) :
    ∃ bodies, s.Runs (emit i) () { s with builder := { s.builder with ensureBodies := bodies } } := by
  obtain ⟨frame, frames, hframes⟩ := List.exists_cons_of_ne_nil hs
  exact ⟨_, (runs_emit_body hframes).mpr rfl⟩

theorem bypasses_pushLoop {frame : LoopFrame} (h : s.Runs pushLoop frame t) :
    s.Bypasses {.hasLoops} [] t := by
  simp only [pushLoop, runs_bind, runs_current, runs_pure, insertFlags] at h
  obtain ⟨_, _, ⟨rfl, rfl⟩, _, s₁, hid, _, s₂, h₁, _, s₃, h₂, _, s₄, h₃, _, s₅, h₄, _, s₆, h₅, _, s₇,
    hflags, _, s₈, hloops, rfl, rfl⟩ := h
  have hlabel : ∀ {u u' : Session} {stem : String} {l : Label},
      u.Runs (newLabelNamed stem) l u' → u.Redirects u' := .of_runs keeps_newLabelNamed
  have hbefore : s.Redirects s₆ :=
    (((((Redirects.of_runs (keeps_updateBuilder rfl rfl rfl rfl rfl) hid).trans (hlabel h₁)).trans
      (hlabel h₂)).trans (hlabel h₃)).trans (hlabel h₄)).trans (.of_runs keeps_temp h₅)
  have hset : s₆.Bypasses {.hasLoops} [] s₇ := by
    obtain rfl := runs_updateBuilder.mp hflags
    exact bypasses_insertFlags
  refine hbefore.bypasses_trans (hset.trans_redirects ?_ ?_)
  · obtain rfl := runs_updateBuilder.mp hflags
    exact id
  · exact .of_runs (keeps_updateBuilder rfl rfl rfl rfl rfl) hloops

theorem bypasses_retry (hs : s.builder.ensureBodies ≠ []) (hrescues : s.builder.rescues ≠ []) :
    s.Bypasses {.hasLoops} [] (retry s).2 := by
  obtain ⟨frame, frames, hframes⟩ := List.exists_cons_of_ne_nil hrescues
  have heq : retry s = (do
      emit .threadPoll
      emit (.putGlobal BuildT.currentException frame.savedException)
      jump frame.entry
      insertFlags {.hasLoops} : SessionM Unit) s := by
    rw [retry, bind_of_runs (runs_current.mpr ⟨rfl, rfl⟩), hframes]
  obtain ⟨_, h₁⟩ := runs_emit_inside (i := .threadPoll) hs
  have hs₁ := Redirects.of_runs keeps_emit h₁
  obtain ⟨_, h₂⟩ := runs_emit_inside
    (i := .putGlobal BuildT.currentException frame.savedException) (hs₁.bodies hs)
  have hs₂ := hs₁.trans (.of_runs keeps_emit h₂)
  obtain ⟨_, h₃⟩ := runs_emit_inside (i := .jump frame.entry) (hs₂.bodies hs)
  rw [heq, bind_of_runs h₁, bind_of_runs h₂, jump, bind_of_runs h₃]
  exact (hs₂.trans (.of_runs keeps_emit h₃)).bypasses_trans bypasses_insertFlags

theorem bypasses_redo (hs : s.builder.ensureBodies ≠ []) (h : s.Unmarked) :
    s.Bypasses ∅ [.label s.builder.scope.startLabel] (redo s).2 ∧
      (redo s).2.builder.closureStart.isSome := by
  obtain ⟨hloops, hnone, x, hx, hkind⟩ := h
  obtain ⟨bodies, hemit⟩ := runs_emit_inside (i := .threadPoll) hs
  have hinside := Redirects.of_runs keeps_emit hemit
  -- the builder keeps the label, which is then put in front
  obtain ⟨t, ht⟩ : ∃ t : Session, t = { s with builder := { s.builder with
      ensureBodies := bodies, closureStart := some s.builder.scope.startLabel } } := ⟨_, rfl⟩
  have hmarked : s.Redirects t := by
    rw [ht]
    exact hinside.trans (.of_builder rfl (fun _ => rfl) rfl rfl id)
  have heq : redo s = (do
      prepend (.label s.builder.scope.startLabel)
      jump s.builder.scope.startLabel : SessionM Unit) t := by
    rw [redo, bind_of_runs (runs_current.mpr ⟨rfl, rfl⟩), Builder.currentLoop, hloops]
    dsimp only [List.head?_nil]
    rw [bind_of_runs (runs_ownScope.mpr ⟨hx, rfl⟩), if_pos hkind, bind_of_runs hemit]
    have hstart : Session.Runs { s with builder := { s.builder with ensureBodies := bodies } }
        closureStart s.builder.scope.startLabel
        ((prepend (.label s.builder.scope.startLabel) : SessionM Unit) t).2 := by
      simp only [closureStart, newClosureStart, runs_bind, runs_current]
      refine ⟨_, _, ⟨rfl, rfl⟩, ?_⟩
      rw [hnone, ht]
      rfl
    rw [bind_of_runs hstart]
    rfl
  have hfront : t.Bypasses ∅ [.label s.builder.scope.startLabel]
      ((prepend (.label s.builder.scope.startLabel) : SessionM Unit) t).2 := bypasses_prepend_label
  have hjump : Session.Redirects
      ((prepend (.label s.builder.scope.startLabel) : SessionM Unit) t).2 (redo s).2 := by
    rw [heq]
    exact keeps_emit
  refine ⟨hmarked.bypasses_trans (hfront.trans_redirects id hjump), ?_⟩
  exact hjump.start (hfront.start (by rw [ht]; rfl))

theorem bypasses_zsuper {block : Operand} {v : Option Variable}
    (hr : (Act.zsuper block).refuses s)
    (h : Workshop.settled (BuildT.zsuper block) s = some (v, t)) :
    s.Bypasses {.usesZSuper} [] t := by
  obtain ⟨result, u, htemp, rfl⟩ := Workshop.refused_of_settled hr h
  refine (Redirects.of_runs keeps_temp htemp).bypasses_trans ?_
  exact (bypasses_insertFlags (s := u)).trans_redirects id
    (Workshop.made_complaint lenient_true).keeps

theorem notes_storeFinal {flags : ScopeFlags} : s.Notes (storeFinal flags) := by
  refine notes_bind (touching_insertFlags trivial).notifies fun _ => ?_
  refine notes_bind touching_current.notifies fun _ => ?_
  refine notes_bind touching_ownScope.notifies fun _ => ?_
  refine notes_bind touching_mapM_scope.notifies fun _ => ?_
  refine notes_bind (touching_record rfl).notifies fun _ => ?_
  refine notes_bind (redirects_liftM Registry.heard_of_updateScope).toNotifies fun _ => ?_
  exact .refl _

theorem notes_finish : s.Notes finish := by
  rw [finish_eq]
  refine notes_bind touching_current.notifies fun _ => ?_
  refine notes_bind touching_ownScope.notifies fun _ => ?_
  split
  · exact .refl _
  split
  · exact .refl _
  exact notes_bind (touching_loadBlock fun _ => trivial).notifies fun _ => notes_storeFinal

end Past

end Session

namespace Act

open Session Workshop

/-- The flags that the operation sets even while an ensure body is at work. -/
def gained (a : Act) (s : Session) : ScopeFlags :=
  (if a.addsLoop s then {.hasLoops} else ∅) ∪ if a.refuses s then {.usesZSuper} else ∅

/-- The instructions that the operation puts in front of the scope's own list even then. -/
def front (a : Act) (s : Session) : List Instr :=
  if a.marksStart s then [.label s.builder.scope.startLabel] else []

theorem gained_of_addsLoop {a : Act} {s : Session} (hloop : a.addsLoop s)
    (hrefuses : a.refuses s = false) : a.gained s = {.hasLoops} := by
  rw [gained, if_pos hloop, hrefuses]
  exact FlagSet.union_empty _

theorem gained_of_refuses {a : Act} {s : Session} (hloop : a.addsLoop s = false)
    (hrefuses : a.refuses s) : a.gained s = {.usesZSuper} := by
  rw [gained, hloop, if_pos hrefuses, FlagSet.union_comm]
  exact FlagSet.union_empty _

theorem gained_eq_empty {a : Act} {s : Session} (hloop : a.addsLoop s = false)
    (hrefuses : a.refuses s = false) : a.gained s = ∅ := by
  rw [gained, hloop, hrefuses]
  exact FlagSet.union_empty _

/-- What gets past an ensure body is known before. -/
theorem keeps_run {a : Act} {s : Session} (ha : a.isDirect = false) (hloop : a.addsLoop s = false)
    (hrefuses : a.refuses s = false) (hmark : a.marksStart s = false) : s.Keeps a.run := by
  have hwithin : a.Within (fun _ => True) (fun _ => False) (fun _ => False) s :=
    { (within_true : a.Within _ _ _ s) with
      start := fun h => Bool.eq_false_iff.mp hmark h
      loops := fun h => Bool.eq_false_iff.mp hloop h
      supers := fun h => Bool.eq_false_iff.mp hrefuses h }
  exact (made lenient_true hwithin ha).keeps

/-- What an operation does to the scope while an ensure body is at work. -/
theorem bypasses_of_settled {a : Act} {s t : Session} {v : Option Unit}
    (h : settled a.run s = some (v, t)) : s.Bypasses (a.gained s) (a.front s) t := by
  have hkeeps {a : Act} (hx : s.Keeps a.run) (ht : t = (a.run s).2)
      (hloop : a.addsLoop s = false) (hrefuses : a.refuses s = false)
      (hmark : a.marksStart s = false) : s.Bypasses (a.gained s) (a.front s) t := by
    rw [gained_eq_empty hloop hrefuses, front, hmark, ht]
    exact hx.toBypasses
  have hunit {α : Type} {x : SessionM α} (hx : s.Keeps x) : s.Keeps (do let _ ← x) :=
    keeps_bind hx fun _ => keeps_pure
  have hnotes {a : Act} (ha : a.isDirect = false) : s.Notifies (a.run s).2 :=
    (made lenient_true within_true ha).notes
  have ht := Workshop.eq_of_settled h
  cases a with
  | note | setCoverage | setMethodName | setEvalType | pushRescue | pushRescuer | pushEnsure =>
    exact hkeeps (keeps_updateBuilder rfl rfl rfl rfl rfl) ht rfl rfl rfl
  | emitAtBeginning => exact hkeeps (touching_emitAtBeginning trivial).redirects ht rfl rfl rfl
  | popRescue | popRescuer | popLoop | popEnsure =>
    refine hkeeps (hunit (keeps_bind keeps_current fun _ => ?_)) ht rfl rfl rfl
    exact keeps_bind (keeps_updateBuilder rfl rfl rfl rfl rfl) fun _ => keeps_pure
  | enterEnsureBody => exact hkeeps keeps_enterEnsureBody ht rfl rfl rfl
  | exitEnsureBody =>
    rw [ht, gained_eq_empty rfl rfl]
    exact bypasses_exitEnsureBody
  | pushLoop =>
    obtain ⟨frame, u, hpush, h⟩ := Uncatchable.pushLoop.runs h
    cases h
    rw [gained_of_addsLoop rfl rfl]
    exact bypasses_pushLoop hpush
  | retry =>
    by_cases hs : s.builder.ensureBodies = []
    · rw [ht]
      exact .of_notifies (hnotes rfl) hs
    cases hrescues : s.builder.rescues with
    | nil =>
      have hloop : Act.retry.addsLoop s = false := by rw [addsLoop, hrescues]; rfl
      exact hkeeps (keeps_run rfl hloop rfl rfl) ht hloop rfl rfl
    | cons frame frames =>
      rw [ht, gained_of_addsLoop (by rw [addsLoop, hrescues]; rfl) rfl]
      exact bypasses_retry hs (hrescues ▸ List.cons_ne_nil _ _)
  | redo =>
    by_cases hs : s.builder.ensureBodies = []
    · rw [ht]
      exact .of_notifies (hnotes rfl) hs
    by_cases hmark : s.Unmarked
    · rw [ht, gained_eq_empty rfl rfl, front, marksStart, if_pos (decide_eq_true hmark)]
      exact (bypasses_redo hs hmark).1
    · have hmark : Act.redo.marksStart s = false := decide_eq_false hmark
      exact hkeeps (keeps_run rfl rfl rfl hmark) ht rfl rfl hmark
  | zsuper block =>
    by_cases hr : (Act.zsuper block).refuses s
    · obtain ⟨v, hv⟩ := settled_discard h
      rw [gained_of_refuses rfl hr]
      exact bypasses_zsuper hr hv
    · have hr := Bool.eq_false_iff.mpr hr
      exact hkeeps (keeps_run rfl rfl hr rfl) ht rfl hr rfl
  -- all others keep list, flags and start, whatever they answer
  | _ => exact hkeeps (keeps_run rfl rfl rfl rfl) ht rfl rfl rfl

/-- A redo that marks the start of the body marks it once. -/
theorem start_of_marksStart {a : Act} {s : Session} (hs : s.builder.ensureBodies ≠ [])
    (h : a.marksStart s) : (a.run s).2.builder.closureStart.isSome := by
  cases a <;> try cases h
  exact (bypasses_redo hs (of_decide_eq_true h)).2

end Act

end ScopeIR
