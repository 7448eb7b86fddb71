import ScopeIR.Proofs.Nested

/-! Facts about the place where code stands. What is built there does not change them, so that they
hold of every session on the way. -/

namespace ScopeIR

open Session

/-- Holds on wherever something is added, and carries over to scopes that are nested. -/
structure Steady (J : Nesting → Session → Prop) : Prop where
  adds {place : Nesting} {s t : Session} {xs : List Instr} :
    J place s → s.Adds t xs → J place t
  entering {place : Nesting} {s : Session} {frame : EnsureFrame} :
    J place s → J place (s.entering frame)
  leaving {place : Nesting} {s : Session} : J place s → J place s.leaving
  block {place : Nesting} {s t : Session} {method : Symbol} : J place s →
    (s.naming (some method)).OpensChild t .closure (some method) → J (place.inBlock method) t
  nested {place : Nesting} {s t : Session} {kind : ScopeKind} : J place s →
    s.OpensChild t kind none → J (place.inScope kind) t

namespace TrailM

variable {α β : Type} {J : Nesting → Session → Prop} {place : Nesting} {s : Session} {h : Trail}

/-- The noted sessions satisfy `J`, and those that were noted before stay so. -/
abbrev Visits (J : Nesting → Session → Prop) (s : Session) (h : Trail) (x : TrailM α) : Prop :=
  x.Builds s h (fun p => J p.1 p.2) fun _ _ k _ => h.points ⊆ k.points

/-- Visits from wherever `J` holds. -/
abbrev Stays (J : Nesting → Session → Prop) (place : Nesting) (x : TrailM Unit) : Prop :=
  ∀ {s : Session} {h : Trail}, J place s → Visits J s h x

theorem visits_lift {x : SessionM α} (hx : ∀ {a t}, s.Runs x a t → ∃ xs, s.Emits t xs) :
    Visits J s h (liftM x : TrailM α) := by
  refine Builds.lift fun hr => ?_
  obtain ⟨xs, hxs⟩ := hx hr
  exact ⟨xs, hxs, List.Subset.refl _⟩

theorem visits_withHanded {target : Nat} {act : Label → SessionM Unit}
    (hact : ∀ {l t}, s.Runs (act l) () t → ∃ xs, s.Emits t xs) :
    Visits J s h (withHanded target act) := by
  refine builds_withHanded (fun _ hr => ?_) fun _ => List.Subset.refl _
  obtain ⟨xs, hxs⟩ := hact hr
  exact ⟨xs, hxs, List.Subset.refl _⟩

theorem visits_bind (hJ : Steady J) {x : TrailM α} {f : α → TrailM β} (hs : J place s)
    (hx : Visits J s h x) (hf : ∀ {a t k}, J place t → Visits J t k (f a)) :
    Visits J s h (x >>= f) :=
  Builds.bind (Builds.mono hx fun hxs hk => Builds.mono (hf (hJ.adds hs hxs.toAdds))
    fun _ hk' => List.Subset.trans hk hk')

theorem visits_then_value (hx : Visits J s h (x : TrailM Unit)) {value : Operand}
    {Q : Operand → Session → Trail → List Instr → Prop}
    (hQ : ∀ {t k xs}, s.Emits t xs → h.points ⊆ k.points → Q value t k xs) :
    (do x; return value : TrailM Operand).Builds s h (fun p => J p.1 p.2) Q :=
  builds_value (Builds.mono hx hQ)

theorem stays_done : Stays J place (pure ()) := fun _ => Builds.pure (List.Subset.refl _)

theorem stays_seq (hJ : Steady J) {x y : TrailM Unit} (hx : Stays J place x)
    (hy : Stays J place y) : Stays J place (do x; y) :=
  fun hs => visits_bind hJ hs (hx hs) fun ht => hy ht

theorem stays_hand {l : Label} {x : TrailM Unit} (hx : Stays J place x) :
    Stays J place (do hand l; x) := fun hs => Yields.hand_bind (hx hs)

theorem stays_repeated (hJ : Steady J) {body : Nat → TrailM Unit}
    (hbody : ∀ i, Stays J place (body i)) (start count : Nat) :
    Stays J place (BuildT.repeated body start count) := by
  induction count generalizing start with
  | zero => exact stays_done
  | succ count ih => exact stays_seq hJ (hbody start) (ih (start + 1))

theorem stays_labelled (hJ : Steady J) {stem : String} {body : Label → TrailM Unit}
    (hbody : ∀ l, Stays J place (body l)) : Stays J place (BuildT.labelled stem body) := by
  intro s h hs
  refine builds_labelled fun hlabel => ?_
  exact Builds.mono (hbody _ (hJ.adds hs hlabel.toAdds)) fun _ hk _ _ => hk

theorem stays_ifElse (hJ : Steady J) {value test : Operand} {yes no : TrailM Unit}
    (hyes : Stays J place yes) (hno : Stays J place no) :
    Stays J place (BuildT.ifElse value test yes no) := by
  intro s h hs
  refine builds_ifElse fun helse hend hbranch => ?_
  have hs := hJ.adds hs (((helse.toEmits.trans hend.toEmits).trans hbranch).toAdds)
  refine Builds.mono (hyes hs) fun hxs hk => fun hmiddle => ?_
  exact Builds.mono (hno (hJ.adds hs (hxs.trans hmiddle).toAdds))
    fun _ hk' _ _ => List.Subset.trans hk hk'

theorem stays_forLoop (hJ : Steady J) {test increment : Label → TrailM Unit}
    {body : Label → Label → TrailM Unit} (htest : ∀ l, Stays J place (test l))
    (hincrement : ∀ l, Stays J place (increment l)) (hbody : ∀ l m, Stays J place (body l m)) :
    Stays J place (BuildT.forLoop test increment body) := by
  intro s h hs
  refine builds_forLoop fun htop hbottom hafter hlabel => ?_
  have hstart := (htop.toEmits.trans hbottom.toEmits).trans hafter.toEmits
  have hs := hJ.adds hs (hstart.trans hlabel).toAdds
  refine Builds.mono (htest _ hs) fun hxs hk => ?_
  have hs := hJ.adds hs hxs.toAdds
  refine Builds.mono (hbody _ _ hs) fun hys hk' => fun hmiddle => ?_
  have hs := hJ.adds hs (hys.trans hmiddle).toAdds
  exact Builds.mono (hincrement _ hs)
    fun _ hl _ _ => List.Subset.trans (List.Subset.trans hk hk') hl

theorem visits_loop (hJ : Steady J) {condition body : TrailM Unit} {value : Operand}
    {goOn testFirst : Bool} (hs : J place s) (hcondition : Stays J place condition)
    (hbody : Stays J place body) :
    Visits J s h (BuildT.loop (do condition; return value) body goOn testFirst : TrailM Operand) := by
  cases testFirst with
  | true =>
    refine builds_loop_testFirst fun hopen => ?_
    have hs := hJ.adds hs hopen.toAdds
    refine visits_then_value (hcondition hs) fun hxs hk _ _ _ hmiddle => ?_
    have hs := hJ.adds hs (hxs.trans hmiddle).toAdds
    exact Builds.mono (hbody hs) fun _ hk' _ _ => List.Subset.trans hk hk'
  | false =>
    refine builds_loop_testLast fun hopen hstart => ?_
    have hs := hJ.adds hs (hopen.toAdds.trans hstart.toAdds)
    refine Builds.mono (hbody hs) fun hxs hk => fun hmiddle => ?_
    have hs := hJ.adds hs (hxs.trans hmiddle).toAdds
    exact visits_then_value (hcondition hs) fun _ hk' _ _ _ _ => List.Subset.trans hk hk'

theorem visits_ensure (hJ : Steady J) {body cleanup : TrailM Unit} {value unused : Operand}
    (hs : J place s) (hbody : Stays J place body) (hcleanup : Stays J place cleanup) :
    Visits J s h
      (BuildT.ensure (do body; return value) (do cleanup; return unused) : TrailM Operand) := by
  refine builds_ensure fun {frame _} hframe => ?_
  have hs : J place (Session.entering _ frame) := hJ.entering (hJ.adds hs hframe.toAdds)
  refine visits_then_value (hcleanup hs) fun hys hk result _ hopen => ?_
  have hs := hJ.adds (hJ.leaving (hJ.adds hs hys.toAdds)) hopen.toAdds
  exact visits_then_value (hbody hs) fun _ hk' _ _ _ _ _ _ _ _ => List.Subset.trans hk hk'

theorem visits_rescue (hJ : Steady J) {body handler : TrailM Unit} {value handled : Operand}
    (hs : J place s) (hbody : Stays J place body) (hhandler : Stays J place handler) :
    Visits J s h (BuildT.rescue (do body; return value)
      fun _ => do handler; return handled : TrailM Operand) := by
  refine builds_rescue fun result _ hopen => ?_
  have hs := hJ.adds hs hopen.toAdds
  refine visits_then_value (hbody hs) fun hxs hk exception _ henter => ?_
  have hs := hJ.adds hs (hxs.toAdds.trans henter.toAdds)
  exact visits_then_value (hhandler hs) fun _ hk' _ _ => List.Subset.trans hk hk'

end TrailM

namespace Code

open TrailM

theorem stays_build {J : Nesting → Session → Prop} (hJ : Steady J) (c : Code) :
    ∀ place, Stays J place (c.build place) := by
  induction c with
  | done => exact fun _ => stays_done
  | seq first rest ihFirst ihRest => exact fun place => stays_seq hJ (ihFirst place) (ihRest place)
  | mark =>
    exact fun place s _ hs => Yields.mark hs ⟨[], Emits.refl s, List.subset_cons_self _ _⟩
  | temp =>
    refine fun _ _ _ hs => visits_bind hJ hs (visits_lift fun htemp => ?_) fun ht => stays_done ht
    exact ⟨_, (takesTemp_of_temp htemp).toEmits⟩
  | note line => exact fun _ _ _ _ => visits_lift fun hnote => ⟨_, emits_of_noteLine hnote⟩
  | emit i => exact fun _ _ _ _ => visits_lift fun hemit => ⟨_, emits_of_emit hemit⟩
  | call result type receiver name args given flags =>
    refine fun _ _ _ hs => visits_bind hJ hs (visits_lift fun hcall => ?_) fun ht => stays_done ht
    obtain ⟨-, refined, hemit⟩ := runs_call hcall
    exact ⟨_, hemit⟩
  | jump target =>
    exact fun _ _ _ _ => visits_withHanded fun hjump => ⟨_, emits_of_emit hjump⟩
  | branch op target value test =>
    exact fun _ _ _ _ => visits_withHanded fun hbranch => ⟨_, emits_of_emit hbranch⟩
  | cond target value test =>
    refine fun _ _ _ _ => visits_withHanded fun hcond => ?_
    obtain ⟨i, -, hemit⟩ := emits_of_cond hcond
    exact ⟨_, hemit⟩
  | condNe target value test =>
    exact fun _ _ _ _ => visits_withHanded fun hbranch => ⟨_, emits_of_emit hbranch⟩
  | ifElse value test yes no ihYes ihNo =>
    exact fun place => stays_ifElse hJ (ihYes place) (ihNo place)
  | ifNot value test body ih =>
    refine fun place => stays_labelled hJ fun l => stays_seq hJ (fun _ => ?_) (ih place)
    refine visits_lift fun hcond => ?_
    obtain ⟨i, -, hemit⟩ := emits_of_cond hcond
    exact ⟨_, hemit⟩
  | forLoop test increment body ihTest ihIncrement ihBody =>
    exact fun place => stays_forLoop hJ (fun _ => stays_hand (ihTest place))
      (fun _ => ihIncrement place) fun _ _ => stays_hand (ihBody place)
  | times count body ih =>
    exact fun place => stays_labelled hJ fun _ =>
      stays_repeated hJ (fun i => stays_hand (ih i place)) 0 count
  | labelled stem body ih => exact fun place => stays_labelled hJ fun _ => stays_hand (ih place)
  | loop condition value body goOn testFirst ihCondition ihBody =>
    exact fun place _ _ hs => visits_bind hJ hs
      (visits_loop hJ hs (ihCondition place) (ihBody place)) fun ht => stays_done ht
  | ensure body value cleanup unused ihBody ihCleanup =>
    exact fun place _ _ hs => visits_bind hJ hs
      (visits_ensure hJ hs (ihBody place) (ihCleanup place)) fun ht => stays_done ht
  | rescue body value handler handled ihBody ihHandler =>
    exact fun place _ _ hs => visits_bind hJ hs
      (visits_rescue hJ hs (ihBody place) (ihHandler place)) fun ht => stays_done ht
  | «break» value =>
    refine fun _ _ _ _ => visits_lift fun hbreak => ?_
    obtain ⟨xs, hxs⟩ := breaks_of_breakWith hbreak
    exact ⟨xs, hxs.emits⟩
  | next value => exact fun _ _ _ _ => builds_next fun _ => List.Subset.refl _
  | redo =>
    refine fun _ _ _ _ => visits_lift fun hredo => ?_
    obtain ⟨xs, hxs⟩ := redoes_of_redo hredo
    exact ⟨xs, hxs.emits⟩
  | retry =>
    refine fun _ _ _ _ => visits_lift fun hretry => ?_
    obtain ⟨frame, -, hemits⟩ := emits_of_retry hretry
    exact ⟨_, hemits⟩
  | «return» value =>
    refine fun _ _ _ _ => visits_lift fun hreturn => ?_
    obtain ⟨xs, hxs⟩ := returns_of_returnWith hreturn
    exact ⟨xs, hxs.emits⟩
  | zsuper block =>
    refine fun _ _ _ hs => visits_bind hJ hs ?_ fun ht => stays_done ht
    exact builds_zsuper (fun _ _ _ _ => List.Subset.refl _) (fun _ _ => List.Subset.refl _)
      fun _ _ _ _ _ => List.Subset.refl _
  | block method body ih =>
    refine fun place _ _ hs => builds_apart (builds_block fun hopen => ?_)
    exact Builds.mono (ih _ (hJ.block hs hopen)) fun _ hk _ _ _ _ => hk
  | nested kind name body ih =>
    refine fun place _ _ hs => builds_apart (builds_child fun hopen => ?_)
    exact Builds.mono (ih _ (hJ.nested hs hopen)) fun _ hk _ _ _ _ => hk

/-- Every session noted down on the way satisfies the fact, even if building fails. -/
theorem points_of_build {J : Nesting → Session → Prop} (hJ : Steady J) {c : Code} {place : Nesting}
    {s : Session} {handed : List Label} {p : Nesting × Session} (hs : J place s)
    (hp : p ∈ (c.build place s ⟨handed, []⟩).2.points) : J p.1 p.2 :=
  ((c.stays_build hJ place hs).points p hp).resolve_left fun h => nomatch h

end Code

end ScopeIR
