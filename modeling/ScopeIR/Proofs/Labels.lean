import ScopeIR.Proofs.Nested
import ScopeIR.Proofs.Placement

/-! Labels of structured code. Whatever it builds, the list that is stored for its scope places each
label at most once, and exactly once if an instruction refers to it. -/

namespace ScopeIR

namespace Session

/-- At the end the label is placed: it is among those given, or it is the label at the start. -/
def Offers (given : List Label) (s : Session) (l : Label) : Prop :=
  l ∈ given ∨ s.builder.closureStart = some l

/-- All that `s` offers is offered by `t`, and labels that are new in `t` are new in `s`. -/
structure Before (s t : Session) : Prop where
  labels_le : s.labels ≤ t.labels
  start : ∀ l, s.builder.closureStart = some l → t.builder.closureStart = some l

variable {s t u : Session} {given own : List Label} {l : Label} {xs : List Instr}

theorem Adds.before (h : s.Adds t xs) : s.Before t where
  labels_le := h.labels_le
  start l hl := by
    rcases h.start with hsame | ⟨hnone, -⟩
    · exact hsame.trans hl
    · cases hl.symm.trans hnone

theorem Before.trans (h : s.Before t) (h' : t.Before u) : s.Before u :=
  ⟨h.labels_le.trans h'.labels_le, fun l hl => h'.start l (h.start l hl)⟩

theorem Before.offers (h : s.Before t) (hl : s.Offers given l) : t.Offers given l :=
  hl.imp_right (h.start l)

theorem offers_append : s.Offers (own ++ given) l ↔ l ∈ own ∨ s.Offers given l := by
  simp only [Offers, List.mem_append, or_assoc]

end Session

open Session

/-- Every label that code may refer to here is placed by what is around it: those handed to it, those
of open constructs, and those that copies of ensure bodies need. -/
structure Known (given : List Label) (s : Session) (h : Trail) : Prop where
  handed : ∀ l ∈ h.handed, l ∈ given
  loops : ∀ f ∈ s.builder.loops, f.loopEnd ∈ given ∧ f.iterStart ∈ given ∧ f.iterEnd ∈ given
  rescues : ∀ f ∈ s.builder.rescues, f.entry ∈ given
  rescuers : ∀ l ∈ s.builder.rescuers, l ∈ given
  ensures : ∀ f ∈ s.builder.ensures, f.Copyable (s.Offers given)

/-- Between `s` and `t` labels were placed as they should, and those handed out meanwhile are among
them. -/
structure Placing (given : List Label) (s : Session) (h : Trail) (t : Session) (k : Trail)
    (xs : List Instr) : Prop where
  before : s.Before t
  places : Places (t.Offers given) s.labels t.labels xs
  handed : ∀ l ∈ k.handed, l ∈ h.handed ∨ l ∈ placed xs

namespace Known

variable {given given' : List Label} {s t : Session} {h k : Trail} {xs : List Instr}

theorem later (hs : Known given s h) (ht : s.Emits t xs) (hgiven : ∀ l ∈ given, l ∈ given')
    (hhanded : ∀ l ∈ k.handed, l ∈ given') : Known given' t k where
  handed := hhanded
  loops f hf := by
    obtain ⟨h₁, h₂, h₃⟩ := hs.loops f (ht.sameStacks.loops ▸ hf)
    exact ⟨hgiven _ h₁, hgiven _ h₂, hgiven _ h₃⟩
  rescues f hf := hgiven _ (hs.rescues f (ht.sameStacks.rescues ▸ hf))
  rescuers l hl := hgiven _ (hs.rescuers l (ht.sameStacks.rescuers ▸ hl))
  ensures f hf := (hs.ensures f (ht.sameStacks.ensures ▸ hf)).mono fun _ hl =>
    (ht.before.offers hl).imp_left (hgiven _)

theorem still (hs : Known given s h) (ht : s.Emits t xs) : Known given t h :=
  hs.later ht (fun _ => id) hs.handed

/-- After code was built, what it placed is known too. -/
theorem after (hs : Known given s h) (ht : s.Emits t xs) (hxs : Placing given s h t k xs) :
    Known (placed xs ++ given) t k := by
  refine hs.later ht (fun l hl => List.mem_append_right _ hl) fun l hl => ?_
  rcases hxs.handed l hl with hl | hl
  · exact List.mem_append_right _ (hs.handed l hl)
  · exact List.mem_append_left _ hl

/-- The labels of a construct are known within it, and may be handed to its parts. -/
theorem within (hs : Known given s h) (own : List Label) (ht : s.Emits t xs)
    (hhanded : ∀ l ∈ k.handed, l ∈ h.handed ∨ l ∈ own) : Known (own ++ given) t k := by
  refine hs.later ht (fun l hl => List.mem_append_right _ hl) fun l hl => ?_
  rcases hhanded l hl with hl | hl
  · exact List.mem_append_right _ (hs.handed l hl)
  · exact List.mem_append_left _ hl

theorem rescuer (hs : Known given s h) :
    s.builder.rescuer = .unrescued ∨ s.builder.rescuer ∈ given := by
  unfold Builder.rescuer
  have hrescuers := hs.rescuers
  cases hr : s.builder.rescuers with
  | nil => exact .inl rfl
  | cons l ls =>
    refine .inr (hrescuers l ?_)
    rw [hr]
    exact List.mem_cons_self

theorem opensLoop {frame : LoopFrame} {setResult : Label} (hs : Known given s h)
    (ht : s.OpensLoop t frame setResult) :
    Known ([frame.loopStart, frame.loopEnd, frame.iterStart, frame.iterEnd, setResult] ++ given)
      t h where
  handed l hl := List.mem_append_right _ (hs.handed l hl)
  loops f hf := by
    rw [ht.loops] at hf
    rcases List.mem_cons.mp hf with rfl | hf
    · simp only [List.cons_append, List.mem_cons, true_or, or_true, and_self]
    · obtain ⟨h₁, h₂, h₃⟩ := hs.loops f hf
      exact ⟨List.mem_append_right _ h₁, List.mem_append_right _ h₂, List.mem_append_right _ h₃⟩
  rescues f hf := List.mem_append_right _ (hs.rescues f (ht.rescues ▸ hf))
  rescuers l hl := List.mem_append_right _ (hs.rescuers l (ht.rescuers ▸ hl))
  ensures f hf := (hs.ensures f (ht.ensures ▸ hf)).mono fun _ hl =>
    (ht.before.offers hl).imp_left (List.mem_append_right _)

theorem opensRegion {frame : EnsureFrame} (hs : Known given s h) (ht : s.OpensRegion t frame)
    (hdummy : frame.dummyRescue ∈ given) (hframe : frame.Copyable (s.Offers given)) :
    Known given t h where
  handed := hs.handed
  loops f hf := hs.loops f (ht.loops ▸ hf)
  rescues f hf := hs.rescues f (ht.rescues ▸ hf)
  rescuers l hl := by
    rw [ht.rescuers] at hl
    rcases List.mem_cons.mp hl with rfl | hl
    · exact hdummy
    · exact hs.rescuers l hl
  ensures f hf := by
    rw [ht.ensures] at hf
    refine EnsureFrame.Copyable.mono ?_ fun _ hl => ht.before.offers hl
    rcases List.mem_cons.mp hf with rfl | hf
    · exact hframe
    · exact hs.ensures f hf

theorem opensRescue {frame : RescueFrame} {rescuer after : Label} (hs : Known given s h)
    (ht : s.OpensRescue t frame rescuer after) :
    Known ([frame.entry, rescuer, after] ++ given) t h where
  handed l hl := List.mem_append_right _ (hs.handed l hl)
  loops f hf := by
    obtain ⟨h₁, h₂, h₃⟩ := hs.loops f (ht.loops ▸ hf)
    exact ⟨List.mem_append_right _ h₁, List.mem_append_right _ h₂, List.mem_append_right _ h₃⟩
  rescues f hf := List.mem_append_right _ (hs.rescues f (ht.rescues ▸ hf))
  rescuers l hl := by
    rw [ht.rescuers] at hl
    rcases List.mem_cons.mp hl with rfl | hl
    · simp only [List.cons_append, List.mem_cons, true_or, or_true]
    · exact List.mem_append_right _ (hs.rescuers l hl)
  ensures f hf := (hs.ensures f (ht.ensures ▸ hf)).mono fun _ hl =>
    (ht.before.offers hl).imp_left (List.mem_append_right _)

theorem entersHandler {frame : RescueFrame} (hs : Known given s h)
    (ht : s.EntersHandler t frame xs) (hentry : frame.entry ∈ given) : Known given t h where
  handed := hs.handed
  loops f hf := hs.loops f (ht.loops ▸ hf)
  rescues f hf := by
    rw [ht.rescues] at hf
    rcases List.mem_cons.mp hf with rfl | hf
    · exact hentry
    · exact hs.rescues f hf
  rescuers l hl := by
    rw [ht.rescuers] at hl
    exact hs.rescuers l (List.mem_of_mem_tail hl)
  ensures f hf := (hs.ensures f (ht.ensures ▸ hf)).mono fun _ hl => ht.before.offers hl

end Known

namespace Placing

variable {given own : List Label} {s s' t t' u : Session} {h h' k l : Trail}
  {xs ys zs : List Instr}

theorem of_places (ht : s.Before t) (hxs : Places (t.Offers given) s.labels t.labels xs) :
    Placing given s h t h xs :=
  ⟨ht, hxs, fun _ => .inl⟩

/-- Labels that were handed out before do not count as handed out meanwhile. -/
theorem retrail (hx : Placing given s h t k xs) (hh : ∀ a ∈ h.handed, a ∈ h'.handed)
    (hl : ∀ a ∈ l.handed, a ∈ k.handed ∨ a ∈ h'.handed) : Placing given s h' t l xs where
  before := hx.before
  places := hx.places
  handed a ha := by
    rcases hl a ha with ha | ha
    · exact (hx.handed a ha).imp_left (hh a)
    · exact .inl ha

/-- Other instructions may stand between two parts. -/
theorem append (hx : Placing given s h t k xs) (ht : t.Before t')
    (hy : Placing (placed xs ++ given) t' k u l ys) : Placing given s h u l (xs ++ ys) where
  before := (hx.before.trans ht).trans hy.before
  places := by
    have hlater := ht.trans hy.before
    refine (hx.places.mono fun _ hl => hlater.offers hl).append
      (Places.widen hy.places ht.labels_le le_rfl fun l hl => ?_) hx.before.labels_le
      hlater.labels_le
    exact offers_append.mp hl
  handed a ha := by
    rw [placed_append, List.mem_append]
    rcases hy.handed a ha with ha | ha
    · exact (hx.handed a ha).imp_right .inl
    · exact .inr (.inr ha)

/-- A construct with labels of its own around its parts. -/
theorem of_parts (own : List Label) (hown : Ascends s.labels s'.labels own) (hs : s.Before s')
    (hparts : Placing (own ++ given) s' h' u k xs) (ht : u.Before t)
    (hhanded : ∀ l ∈ h'.handed, l ∈ h.handed ∨ l ∈ own)
    (hcount : ∀ l, (placed zs).count l = own.count l + (placed xs).count l)
    (hneeds : ∀ l ∈ needed zs, l ∈ own ∨ l ∈ needed xs) : Placing given s h t k zs where
  before := (hs.trans hparts.before).trans ht
  places := by
    refine .of_parts own hown (hparts.places.widen le_rfl ht.labels_le fun l hl => ?_)
      (hparts.before.trans ht).labels_le hcount hneeds
    exact offers_append.mp (ht.offers hl)
  handed a ha := by
    have hmem : a ∈ own ∨ a ∈ placed xs → a ∈ placed zs := by
      rw [← List.count_pos_iff, ← List.count_pos_iff, ← List.count_pos_iff, hcount a]
      omega
    rcases hparts.handed a ha with ha | ha
    · exact (hhanded a ha).imp_right fun ha => hmem (.inl ha)
    · exact .inr (hmem (.inr ha))

end Placing

section Exits

variable {given : List Label} {s t : Session} {h : Trail} {xs : List Instr} {value : Operand}

theorem Known.copiesAll {frames : List EnsureFrame} {u : Session} {ys : List Instr}
    (hs : Known given s h) (hcopies : CopiesAll frames s u xs) (hu : u.Emits t ys)
    (hframes : ∀ f ∈ frames, f ∈ s.builder.ensures)
    (hys : Places (t.Offers given) u.labels t.labels ys) :
    Places (t.Offers given) s.labels t.labels (xs ++ ys) := by
  have hlater := hcopies.emits.before.trans hu.before
  have hxs : Places (t.Offers given) s.labels u.labels xs := by
    refine hcopies.places fun f hf => (hs.ensures f (hframes f hf)).mono fun _ hl => ?_
    exact hlater.offers hl
  exact hxs.append (hys.mono fun _ => .inr) hcopies.emits.labels_le hu.labels_le

theorem Known.breaks (hs : Known given s h) (hbreaks : s.Breaks value t xs) :
    Places (t.Offers given) s.labels t.labels xs := by
  cases hbreaks with
  | loop hframe hcopies hjump =>
    refine hs.copiesAll hcopies hjump (fun f hf => mem_of_mem_passedEnsures hf) ?_
    exact .plain_cons rfl (.jump (.inl (hs.loops _ (List.mem_of_head? hframe)).1))
  | block _ _ _ _ => exact .plain_cons rfl .nil

theorem Known.nexts (hs : Known given s h) (hnexts : s.Nexts value t xs) :
    Places (t.Offers given) s.labels t.labels xs := by
  cases hnexts with
  | loop hframe hcopies hjump =>
    refine hs.copiesAll hcopies hjump (fun f hf => mem_of_mem_passedEnsures hf) ?_
    exact .jump (.inl (hs.loops _ (List.mem_of_head? hframe)).2.2)
  | block _ hcopies _ _ hret =>
    exact hs.copiesAll hcopies hret (fun f hf => hf) (.plain_cons rfl (.plain_cons rfl .nil))

theorem Known.redoes (hs : Known given s h) (hredoes : s.Redoes t xs) :
    Places (t.Offers given) s.labels t.labels xs := by
  cases hredoes with
  | loop hframe _ => exact .jump (.inl (hs.loops _ (List.mem_of_head? hframe)).2.1)
  | block _ hstart _ => exact .plain_cons rfl (.jump (.inr hstart))

theorem Known.returns (hs : Known given s h) (hreturns : s.Returns value t xs) :
    Places (t.Offers given) s.labels t.labels xs := by
  cases hreturns with
  | transfer _ _ hplain _ => exact .of_plain hplain
  | plain _ _ => exact .plain_cons rfl .nil
  | copies hcopy hcopies hret =>
    have hrest := (hs.still hcopy).copiesAll hcopies hret (fun f hf => hcopy.sameStacks.ensures ▸ hf)
      (.plain_cons rfl .nil)
    exact .plain_cons rfl (hrest.widen hcopy.labels_le le_rfl fun _ => id)

end Exits

namespace TrailM

variable {α β : Type} {given own : List Label} {s : Session} {h : Trail}

/-- The list that the action adds places labels as it should. -/
abbrev Settles (given : List Label) (s : Session) (h : Trail) (x : TrailM α) : Prop :=
  x.Builds s h (fun _ => True) fun _ t k xs => Placing given s h t k xs

theorem settles_lift {x : SessionM α} (hx : ∀ {a t}, s.Runs x a t →
    ∃ xs, s.Emits t xs ∧ Places (t.Offers given) s.labels t.labels xs) :
    Settles given s h (liftM x : TrailM α) := by
  refine Builds.lift fun hr => ?_
  obtain ⟨xs, hxs, hplaces⟩ := hx hr
  exact ⟨xs, hxs, .of_places hxs.before hplaces⟩

theorem settles_withHanded {target : Nat} {act : Label → SessionM Unit} (hs : Known given s h)
    (hact : ∀ {l t}, l ∈ given → s.Runs (act l) () t →
      ∃ xs, s.Emits t xs ∧ Places (t.Offers given) s.labels t.labels xs) :
    Settles given s h (withHanded target act) := by
  refine builds_withHanded (fun {l _} hl hr => ?_) fun _ => .of_places (Emits.refl s).before .nil
  obtain ⟨xs, hxs, hplaces⟩ := hact (hs.handed l (List.mem_of_getElem? hl)) hr
  exact ⟨xs, hxs, .of_places hxs.before hplaces⟩

theorem settles_bind {x : TrailM α} {f : α → TrailM β} (hs : Known given s h)
    (hx : Settles given s h x)
    (hf : ∀ {a given t k}, Known given t k → Settles given t k (f a)) :
    Settles given s h (x >>= f) := by
  refine Builds.bind (Builds.mono hx fun hxs hx => Builds.mono (hf (hs.after hxs hx)) ?_)
  exact fun _ hy => hx.append (Emits.refl _).before hy

/-- Settles wherever what is around it is known. -/
abbrev Sound (x : TrailM Unit) : Prop :=
  ∀ {given : List Label} {s : Session} {h : Trail}, Known given s h → Settles given s h x

theorem settles_ifElse {value test : Operand} {yes no : TrailM Unit} (hs : Known given s h)
    (hyes : Sound yes) (hno : Sound no) : Settles given s h (BuildT.ifElse value test yes no) := by
  refine builds_ifElse fun {e n s₁ s₂ s₃} helse hend hbranch => ?_
  have hs₃ := (helse.toEmits.trans hend.toEmits).trans hbranch
  have hk := hs.within [e, n] hs₃ fun _ => .inl
  refine Builds.mono (hyes hk) fun hxs hx => fun hmiddle => ?_
  have hk' := (hk.after hxs hx).still hmiddle
  refine Builds.mono (hno hk') fun _ hy => fun hlabel => ?_
  have hown : Ascends s.labels s₂.labels [e, n] :=
    ⟨isInner_of_lbl helse.stem_eq, helse.ge, isInner_of_lbl hend.stem_eq,
      helse.lt.trans_le hend.ge, hend.lt⟩
  refine .of_parts [e, n] (hown.widen hbranch.labels_le) hs₃.before (hx.append hmiddle.before hy)
    hlabel.before (fun _ => .inl) ?_ ?_
  · intro l
    simp only [List.cons_append, placed_append, placed_branchUnlessEqual, placed_jump, placed_label,
      placed_nil, List.count_append, List.count_cons, List.count_nil]
    omega
  · intro l hl
    simp only [List.cons_append, needed_append, needed_branchUnlessEqual, needed_jump, needed_label,
      needed_nil, List.mem_append, List.mem_cons, List.not_mem_nil] at hl ⊢
    tauto

theorem sound_done : Sound (pure ()) :=
  fun _ => Builds.pure (.of_places (Emits.refl _).before .nil)

theorem sound_seq {x y : TrailM Unit} (hx : Sound x) (hy : Sound y) :
    Sound (do x; y) := fun hs => settles_bind hs (hx hs) hy

/-- A label that may be handed to the body and stands after it. -/
theorem settles_labelled {stem : String} {body : Label → TrailM Unit} (hs : Known given s h)
    (hstem : ∀ l : Label, l.stem = stem → l.IsInner)
    (hbody : ∀ {l s₁}, s.Emits s₁ [] → Known ([l] ++ given) s₁ (h.handing l) →
      (body l).Builds s₁ h (fun _ => True) fun _ t k xs =>
        Placing ([l] ++ given) s₁ (h.handing l) t k xs) :
    Settles given s h (BuildT.labelled stem body) := by
  refine builds_labelled fun {l s₁} hlabel => ?_
  have hhanded : ∀ m ∈ (h.handing l).handed, m ∈ h.handed ∨ m ∈ [l] := fun _ => List.mem_append.mp
  refine Builds.mono (hbody hlabel.toEmits (hs.within [l] hlabel.toEmits hhanded)) fun _ hx => ?_
  intro t hafter
  have hown : Ascends s.labels s₁.labels [l] := ⟨hstem l hlabel.stem_eq, hlabel.ge, hlabel.lt⟩
  refine .of_parts [l] hown hlabel.before hx hafter.before hhanded ?_ ?_
  · intro m
    simp only [placed_append, placed_label, placed_nil, List.count_append]
    omega
  · intro m hm
    simp only [needed_append, needed_label, needed_nil, List.append_nil] at hm
    exact .inr hm

theorem sound_labelled {stem : String} {body : TrailM Unit}
    (hstem : ∀ l : Label, l.stem = stem → l.IsInner) (hbody : Sound body) :
    Sound (BuildT.labelled stem fun l => do hand l; body) :=
  fun hs => settles_labelled hs hstem fun _ hk => Yields.hand_bind (hbody hk)

theorem sound_ifNot {value test : Operand} {body : TrailM Unit} (hbody : Sound body) :
    Sound (BuildT.ifNot value test body) := by
  intro given s h hs
  refine settles_labelled hs (fun l hl => isInner_of_getLast (by rw [hl]; decide)) fun {l s₁} _ hk => ?_
  have hl : l ∈ [l] ++ given := List.mem_append_left _ (List.mem_singleton_self l)
  have hk : Known ([l] ++ given) s₁ h := ⟨fun m hm => hk.handed m (List.mem_append_left _ hm),
    hk.loops, hk.rescues, hk.rescuers, hk.ensures⟩
  refine Builds.mono (settles_bind hk (settles_lift fun hcond => ?_) fun hk => hbody hk)
    fun _ hx => hx.retrail (fun m hm => List.mem_append_left _ hm) fun _ => .inl
  obtain ⟨i, hi, hemit⟩ := emits_of_cond hcond
  exact ⟨[i], hemit, .branchIf hi (.inl hl)⟩

theorem builds_repeated {l : Label} {body : Nat → TrailM Unit} (hbody : ∀ i, Sound (body i))
    (start count : Nat) {given : List Label} {s : Session} {h : Trail}
    (hs : Known given s (h.handing l)) :
    Builds (BuildT.repeated (fun i => do hand l; body i) start count) s h (fun _ => True)
      fun _ t k xs => Placing given s (h.handing l) t k xs := by
  induction count generalizing start given s h with
  | zero =>
    exact Builds.pure ((Placing.of_places (Emits.refl s).before .nil).retrail
      (fun m hm => List.mem_append_left _ hm) fun _ => .inl)
  | succ count ih =>
    refine Builds.bind (Yields.hand_bind (Builds.mono (hbody start hs) fun {_ t k xs} hxs hx => ?_))
    have hlast : ∀ m ∈ (k.handing l).handed, m ∈ k.handed ∨ m ∈ (h.handing l).handed := fun m hm =>
      (Trail.mem_handing.mp hm).imp_right fun hm => Trail.mem_handing.mpr (.inr hm)
    have hx' := hx.retrail (fun _ => id) hlast
    exact Builds.mono (ih (start + 1) (hs.after hxs hx')) fun _ hy =>
      hx'.append (Emits.refl t).before hy

theorem sound_times {count : Nat} {body : Nat → TrailM Unit} (hbody : ∀ i, Sound (body i)) :
    Sound (BuildT.times count fun l i => do hand l; body i) :=
  fun hs => settles_labelled hs (fun l hl => isInner_of_getLast (by rw [hl]; decide))
    fun _ hk => builds_repeated hbody 0 count hk

theorem sound_forLoop {test increment body : TrailM Unit} (htest : Sound test)
    (hincrement : Sound increment) (hbody : Sound body) :
    Sound (BuildT.forLoop (fun after => do hand after; test) (fun _ => increment)
      fun _ bottom => do hand bottom; body) := by
  intro given s h hs
  refine builds_forLoop fun {top bottom after s₁ s₂ s₃ s₄} htop hbottom hafter hlabel => ?_
  have hs₃ := (htop.toEmits.trans hbottom.toEmits).trans hafter.toEmits
  have hk := hs.within (k := h.handing after) [top, bottom, after] (hs₃.trans hlabel) ?_
  swap
  · intro l hl
    rcases List.mem_append.mp hl with hl | hl
    · exact .inl hl
    · exact .inr (List.mem_cons_of_mem _ (List.mem_cons_of_mem _ hl))
  refine Yields.hand_bind (Builds.mono (htest hk) fun {_ s₅ k xs} hxs hx => ?_)
  -- the body is handed a label that its surroundings know already
  have hk' : Known (placed xs ++ ([top, bottom, after] ++ given)) s₅ (k.handing bottom) := by
    refine (hk.after hxs hx).later (Emits.refl s₅) (fun _ => id) fun l hl => ?_
    rcases List.mem_append.mp hl with hl | hl
    · exact (hk.after hxs hx).handed l hl
    · obtain rfl := List.mem_singleton.mp hl
      simp only [List.mem_append, List.mem_cons, true_or, or_true]
  refine Yields.hand_bind (Builds.mono (hbody hk') fun hys hy => fun hmiddle => ?_)
  refine Builds.mono (hincrement ((hk'.after hys hy).still hmiddle)) fun {_ s₈ k₂ zs} _ hz => ?_
  intro t hend
  have hown : Ascends s.labels s₃.labels [top, bottom, after] :=
    ⟨isInner_of_getLast (by rw [htop.stem_eq]; decide), htop.ge,
      isInner_of_getLast (by rw [hbottom.stem_eq]; decide), htop.lt.trans_le hbottom.ge,
      isInner_of_getLast (by rw [hafter.stem_eq]; decide), hbottom.lt.trans_le hafter.ge,
      hafter.lt⟩
  have hyz := hy.append hmiddle.before hz
  have hx' : Placing ([top, bottom, after] ++ given) s₄ ((h.handing after).handing bottom) s₅
      (k.handing bottom) xs := by
    refine hx.retrail (fun _ hl => List.mem_append_left _ hl) fun l hl => ?_
    rcases List.mem_append.mp hl with hl | hl
    · exact .inl hl
    · exact .inr (List.mem_append_right _ hl)
  have hall := hx'.append (Emits.refl s₅).before hyz
  refine .of_parts [top, bottom, after] (hown.widen hlabel.labels_le) (hs₃.trans hlabel).before
    hall hend.before ?_ ?_ ?_
  · intro l hl
    simp only [Trail.handing, List.mem_append, List.mem_cons, List.not_mem_nil] at hl ⊢
    tauto
  · intro l
    simp only [List.cons_append, placed_append, placed_jump, placed_label, placed_nil,
      List.count_append, List.count_cons, List.count_nil]
    omega
  · intro l hl
    simp only [List.cons_append, needed_append, needed_jump, needed_label, needed_nil,
      List.mem_append, List.mem_cons, List.not_mem_nil] at hl ⊢
    tauto

theorem ascends_of_opensLoop {frame : LoopFrame} {setResult : Label} {t : Session}
    (ht : s.OpensLoop t frame setResult) : Ascends s.labels t.labels
      [frame.loopStart, frame.loopEnd, frame.iterStart, frame.iterEnd, setResult] := by
  obtain ⟨h₁, h₂, h₃, h₄, h₅⟩ := ht.stems
  exact ⟨isInner_of_getLast (by rw [h₁]; decide), ht.ge,
    isInner_of_getLast (by rw [h₂]; decide), ht.lt_loopEnd,
    isInner_of_getLast (by rw [h₃]; decide), ht.lt_iterStart,
    isInner_of_getLast (by rw [h₄]; decide), ht.lt_iterEnd,
    isInner_of_lbl h₅, ht.lt_setResult, ht.lt⟩

theorem settles_loop {condition body : TrailM Unit} {value : Operand} {goOn testFirst : Bool}
    (hs : Known given s h) (hcondition : Sound condition) (hbody : Sound body) :
    Settles given s h
      (BuildT.loop (do condition; return value) body goOn testFirst : TrailM Operand) := by
  cases testFirst with
  | true =>
    refine builds_loop_testFirst fun {frame setResult s₁} hopen => ?_
    have hk := hs.opensLoop hopen
    refine builds_value (Builds.mono (hcondition hk) fun {_ s₂ k xs} hxs hx => ?_)
    intro i s₃ hi hmiddle
    have hk' := (hk.after hxs hx).still hmiddle
    refine Builds.mono (hbody hk') fun {_ s₄ k' ys} hys hy => ?_
    intro t hclose
    refine .of_parts _ (ascends_of_opensLoop hopen) hopen.before (hx.append hmiddle.before hy)
      hclose.before (fun _ => .inl) ?_ ?_
    · intro l
      simp only [List.cons_append, placed_append, placed_branchIf hi, placed_jump, placed_label,
        placed_plain (i := .threadPoll) rfl, placed_plain (i := .copy _ _) rfl, placed_nil,
        List.count_append, List.count_cons, List.count_nil]
      omega
    · intro l hl
      have hbranch := mem_needs?_of_branchIf (l := l) hi
      simp only [List.cons_append, needed_append, needed_jump, needed_label, needed_cons (i := i),
        needed_plain (i := .threadPoll) rfl, needed_plain (i := .copy _ _) rfl, needed_nil,
        List.mem_append, List.mem_cons, List.not_mem_nil] at hl ⊢
      tauto
  | false =>
    refine builds_loop_testLast fun {frame setResult s₁ s₂} hopen hstart => ?_
    have hk := (hs.opensLoop hopen).still hstart
    refine Builds.mono (hbody hk) fun {_ s₃ k xs} hxs hx => fun {s₄} hmiddle => ?_
    have hk' := (hk.after hxs hx).still hmiddle
    refine builds_value (Builds.mono (hcondition hk') fun {_ s₅ k' ys} hys hy => ?_)
    intro i t hi hclose
    refine .of_parts _ ((ascends_of_opensLoop hopen).widen hstart.labels_le)
      (hopen.before.trans hstart.before) (hx.append hmiddle.before hy) hclose.before
      (fun _ => .inl) ?_ ?_
    · intro l
      simp only [List.cons_append, placed_append, placed_branchIf hi, placed_label,
        placed_plain (i := .threadPoll) rfl, placed_plain (i := .copy _ _) rfl, placed_nil,
        List.count_append, List.count_cons, List.count_nil]
      omega
    · intro l hl
      have hbranch := mem_needs?_of_branchIf (l := l) hi
      simp only [List.cons_append, needed_append, needed_label, needed_cons (i := i),
        needed_plain (i := .threadPoll) rfl, needed_plain (i := .copy _ _) rfl, needed_nil,
        List.mem_append, List.mem_cons, List.not_mem_nil] at hl ⊢
      tauto

theorem ascends_of_newEnsure {frame : EnsureFrame} {t : Session} (ht : s.NewEnsure t frame) :
    Ascends s.labels (t.entering frame).labels
      [frame.regionStart, frame.bodyStart, frame.bodyEnd, frame.dummyRescue] := by
  have hinner : ∀ l ∈ [frame.regionStart, frame.bodyStart, frame.bodyEnd, frame.dummyRescue],
      l.IsInner := fun l hl => isInner_of_lbl (ht.stems l hl)
  simp only [List.mem_cons, List.not_mem_nil, or_false, forall_eq_or_imp, forall_eq] at hinner
  obtain ⟨h₁, h₂, h₃, h₄⟩ := hinner
  exact ⟨h₁, ht.ge, h₂, ht.lt_bodyStart, h₃, ht.lt_bodyEnd, h₄, ht.lt_dummyRescue, ht.lt⟩

/-- Exits may copy the body once it is built. -/
theorem copyable_of_newEnsure {frame : EnsureFrame} {s₁ s₂ : Session} {k : Trail}
    {ys : List Instr} (hs : Known given s h) (hframe : s.NewEnsure s₁ frame)
    (hgiven : ∀ l ∈ given, l ∈ own) (hy : Placing own (s₁.entering frame) h s₂ k ys) :
    (frame.filled ys).Copyable (s₂.Offers own) where
  nodup := by
    refine List.nodup_cons.mpr ⟨fun hmem => ?_, ?_⟩
    · have hge : s₁.labels ≤ frame.bodyStart.index.toNat := (hy.places.bounds hmem).1
      have := hframe.lt_bodyEnd
      have := hframe.lt_dummyRescue
      have := hframe.lt
      omega
    · exact List.nodup_iff_count_le_one.mpr hy.places.count_le
  needs hl := hy.places.needs hl
  rescuer := by
    change frame.rescuer = _ ∨ s₂.Offers own frame.rescuer
    rw [hframe.rescuer_eq]
    exact hs.rescuer.imp_right fun hl => .inl (hgiven _ hl)

theorem settles_ensure {body cleanup : TrailM Unit} {value unused : Operand}
    (hs : Known given s h) (hbody : Sound body) (hcleanup : Sound cleanup) :
    Settles given s h
      (BuildT.ensure (do body; return value) (do cleanup; return unused) : TrailM Operand) := by
  refine builds_ensure fun {frame s₁} hframe => ?_
  have hk := hs.within [frame.regionStart, frame.bodyStart, frame.bodyEnd,
    frame.dummyRescue] hframe.toEmits fun _ => .inl
  have hk : Known _ (s₁.entering frame) h :=
    ⟨hk.handed, hk.loops, hk.rescues, hk.rescuers, hk.ensures⟩
  refine builds_value (Builds.mono (hcleanup hk) fun {_ s₂ k ys} hys hy => ?_)
  intro result s₃ hopen
  have hcopyable := copyable_of_newEnsure hs hframe (fun _ => List.mem_append_right _) hy
  have hcopyable := hcopyable.mono fun l hl => hl.imp_left (List.mem_append_right (placed ys))
  have hk := hk.after hys hy
  have hk : Known _ s₂.leaving k := ⟨hk.handed, hk.loops, hk.rescues, hk.rescuers, hk.ensures⟩
  have hdummy : frame.dummyRescue ∈ placed ys ++ ([frame.regionStart, frame.bodyStart,
      frame.bodyEnd, frame.dummyRescue] ++ given) := by
    simp only [List.mem_append, List.mem_cons, true_or, or_true]
  refine builds_value (Builds.mono (hbody (hk.opensRegion hopen hdummy hcopyable)) ?_)
  intro _ s₄ k' xs _ hx exception s₅ s₆ t cs hclose hcopies htail
  have hopened : s₂.Before s₃ := ⟨hopen.before.labels_le, hopen.before.start⟩
  have hxy := hy.append hopened hx
  have hlater := ((hopened.trans hx.before).trans hclose.before).trans hcopies.emits.before
  have hcs := hcopies.places (hcopyable.mono fun l hl => hlater.offers hl)
  have hc : Placing (placed (ys ++ xs) ++ ([frame.regionStart, frame.bodyStart, frame.bodyEnd,
      frame.dummyRescue] ++ given)) s₅ k' s₆ k' cs := by
    refine .of_places hcopies.emits.before (hcs.mono fun l hl => ?_)
    rw [placed_append, List.append_assoc]
    refine hl.imp_left fun hl => ?_
    rcases List.mem_append.mp hl with hl | hl
    · exact List.mem_append_left _ hl
    · exact List.mem_append_right _ (List.mem_append_right _ hl)
  have hs₁ : s.Before (s₁.entering frame) := ⟨hframe.before.labels_le, hframe.before.start⟩
  refine .of_parts _ (ascends_of_newEnsure hframe) hs₁ (hxy.append hclose.before hc)
    htail.before (fun _ => .inl) ?_ ?_
  · intro l
    simp only [List.cons_append, placed_append, placed_label, placed_jump, placed_regionStart,
      placed_regionEnd, placed_plain (i := .copy _ _) rfl, placed_plain (i := .raise _) rfl,
      placed_plain (i := .receiveException _) rfl, placed_nil, List.count_append, List.count_cons,
      List.count_nil]
    omega
  · have hne : frame.dummyRescue ≠ .unrescued :=
      ne_unrescued_of_lbl (hframe.stems _ (by simp only [List.mem_cons, true_or, or_true]))
    intro l hl
    simp only [List.cons_append, needed_append, needed_label, needed_jump, needed_regionStart hne,
      needed_regionEnd, needed_plain (i := .copy _ _) rfl, needed_plain (i := .raise _) rfl,
      needed_plain (i := .receiveException _) rfl, needed_nil, List.mem_append, List.mem_cons,
      List.not_mem_nil] at hl ⊢
    tauto

theorem settles_rescue {body handler : TrailM Unit} {value handled : Operand}
    (hs : Known given s h) (hbody : Sound body) (hhandler : Sound handler) :
    Settles given s h (BuildT.rescue (do body; return value)
      fun _ => do handler; return handled : TrailM Operand) := by
  refine builds_rescue fun {frame rescuer after} result {s₁} hopen => ?_
  have hk := hs.opensRescue hopen
  refine builds_value (Builds.mono (hbody hk) fun {_ s₂ k xs} hxs hx => ?_)
  intro exception s₃ henter
  have hentry : frame.entry ∈ placed xs ++ ([frame.entry, rescuer, after] ++ given) := by
    simp only [List.mem_append, List.mem_cons, true_or, or_true]
  have hk := (hk.after hxs hx).entersHandler henter hentry
  refine builds_value (Builds.mono (hhandler hk) fun {_ s₄ k' ys} hys hy => ?_)
  intro t hleave
  have hinner : ∀ l ∈ [frame.entry, rescuer, after], l.IsInner :=
    fun l hl => isInner_of_lbl (hopen.stems l hl)
  simp only [List.mem_cons, List.not_mem_nil, or_false, forall_eq_or_imp, forall_eq] at hinner
  obtain ⟨h₁, h₂, h₃⟩ := hinner
  have hown : Ascends s.labels s₁.labels [frame.entry, rescuer, after] :=
    ⟨h₁, hopen.ge, h₂, hopen.lt_rescuer, h₃, hopen.lt_after, hopen.lt⟩
  refine .of_parts _ hown hopen.before (hx.append henter.before hy) hleave.before
    (fun _ => .inl) ?_ ?_
  · intro l
    simp only [List.cons_append, placed_append, placed_label, placed_jump, placed_regionStart,
      placed_regionEnd, placed_plain (i := .copy _ _) rfl, placed_plain (i := .getGlobal _ _) rfl,
      placed_plain (i := .receiveException _) rfl, placed_nil, List.count_append, List.count_cons,
      List.count_nil]
    omega
  · have hne : rescuer ≠ .unrescued :=
      ne_unrescued_of_lbl (hopen.stems _ (by simp only [List.mem_cons, true_or, or_true]))
    intro l hl
    simp only [List.cons_append, needed_append, needed_label, needed_jump, needed_regionStart hne,
      needed_regionEnd, needed_plain (i := .copy _ _) rfl, needed_plain (i := .getGlobal _ _) rfl,
      needed_plain (i := .receiveException _) rfl, needed_nil, List.mem_append, List.mem_cons,
      List.not_mem_nil] at hl ⊢
    tauto

theorem settles_zsuper {block : Operand} :
    Settles given s h (BuildT.zsuper block : TrailM Variable) := by
  refine builds_zsuper ?_ ?_ ?_
  · intro result t xs _ hraising hemits _
    exact .of_places hemits.before (.of_plain hraising.isPlain)
  · intro args result t call _ hemits
    exact .of_places hemits.before (.plain_cons rfl .nil)
  · intro args result test e n s₁ s₂ s₃ t rest short long _ htest he hn hemits
    have hown : Ascends s.labels s₃.labels [e, n] :=
      ⟨isInner_of_lbl he.stem_eq, htest.labels_le.trans he.ge, isInner_of_lbl hn.stem_eq,
        he.lt.trans_le hn.ge, hn.lt⟩
    refine .of_parts [e, n] hown ((htest.trans he.toEmits).trans hn.toEmits).before
      (.of_places (Emits.refl s₃).before (.nil)) hemits.before (fun _ => .inl) ?_ ?_
    · intro l
      simp only [placed_cons, Instr.label?, Option.toList_none, Option.toList_some, placed_nil,
        List.nil_append, List.cons_append, List.count_cons, List.count_nil, Nat.add_zero]
    · intro l hl
      simp only [needed_cons, Instr.needs?, Option.toList_none, Option.toList_some, needed_nil,
        List.nil_append, List.cons_append, List.mem_cons, List.not_mem_nil] at hl ⊢
      exact .inl hl

/-- What is built in another scope does not count here. -/
theorem settles_apart {x : TrailM α} (hx : x.Builds s { h with handed := [] } (fun _ => True)
    fun _ _ _ xs => xs = []) : Settles given s h (apart x) := by
  refine builds_apart (Builds.mono hx ?_)
  rintro _ t k _ ht rfl
  exact ⟨ht.before, .nil, fun _ => .inl⟩

theorem known_of_fresh (hs : s.builder.Fresh) (hh : h.handed = []) : Known [] s h where
  handed l hl := hh ▸ hl
  loops f hf := by
    rw [hs.loops] at hf
    cases hf
  rescues f hf := by
    rw [hs.rescues] at hf
    cases hf
  rescuers l hl := by
    rw [hs.rescuers] at hl
    cases hl
  ensures f hf := by
    rw [hs.ensures] at hf
    cases hf

end TrailM

namespace Code

open TrailM

theorem sound_build (c : Code) : ∀ place, Sound (c.build place) := by
  induction c with
  | done => exact fun _ => sound_done
  | seq first rest ihFirst ihRest => exact fun place => sound_seq (ihFirst place) (ihRest place)
  | mark =>
    exact fun place _ s _ _ => Yields.mark trivial
      ⟨[], Emits.refl s, (Emits.refl s).before, .nil, fun _ => .inl⟩
  | temp =>
    refine fun _ _ _ _ hs => settles_bind hs (settles_lift fun htemp => ?_) sound_done
    exact ⟨[], (takesTemp_of_temp htemp).toEmits, .nil⟩
  | note line =>
    refine fun _ _ _ _ _ => settles_lift fun hnote => ?_
    exact ⟨[], emits_of_noteLine hnote, .nil⟩
  | emit i =>
    refine fun _ _ _ _ _ => settles_lift fun hemit => ?_
    exact ⟨[i.1], emits_of_emit hemit, .plain_cons i.2 .nil⟩
  | call result type receiver name args given flags =>
    refine fun _ _ _ _ hs => settles_bind hs (settles_lift fun hcall => ?_) sound_done
    obtain ⟨-, refined, hemit⟩ := runs_call hcall
    exact ⟨_, hemit, .plain_cons rfl .nil⟩
  | jump target =>
    refine fun _ _ _ _ hs => settles_withHanded hs fun hl hjump => ?_
    exact ⟨_, emits_of_emit hjump, .jump (.inl hl)⟩
  | branch op target value test =>
    refine fun _ _ _ _ hs => settles_withHanded hs fun hl hbranch => ?_
    exact ⟨_, emits_of_emit hbranch, .of_needs rfl rfl (.inl hl)⟩
  | cond target value test =>
    refine fun _ _ _ _ hs => settles_withHanded hs fun hl hcond => ?_
    obtain ⟨i, hi, hemit⟩ := emits_of_cond hcond
    exact ⟨[i], hemit, .branchIf hi (.inl hl)⟩
  | condNe target value test =>
    refine fun _ _ _ _ hs => settles_withHanded hs fun hl hbranch => ?_
    exact ⟨_, emits_of_emit hbranch, .of_needs placed_branchUnlessEqual needed_branchUnlessEqual
      (.inl hl)⟩
  | ifElse value test yes no ihYes ihNo =>
    exact fun place _ _ _ hs => settles_ifElse hs (ihYes place) (ihNo place)
  | ifNot value test body ih => exact fun place => sound_ifNot (ih place)
  | forLoop test increment body ihTest ihIncrement ihBody =>
    exact fun place => sound_forLoop (ihTest place) (ihIncrement place) (ihBody place)
  | times count body ih => exact fun place => sound_times fun i => ih i place
  | labelled stem body ih =>
    refine fun place => sound_labelled (fun l hl id => ?_) (ih place)
    rw [hl]
    exact stem.notStart id
  | loop condition value body goOn testFirst ihCondition ihBody =>
    exact fun place _ _ _ hs => settles_bind hs
      (settles_loop hs (ihCondition place) (ihBody place)) sound_done
  | ensure body value cleanup unused ihBody ihCleanup =>
    exact fun place _ _ _ hs => settles_bind hs
      (settles_ensure hs (ihBody place) (ihCleanup place)) sound_done
  | rescue body value handler handled ihBody ihHandler =>
    exact fun place _ _ _ hs => settles_bind hs
      (settles_rescue hs (ihBody place) (ihHandler place)) sound_done
  | «break» value =>
    refine fun _ _ _ _ hs => settles_lift fun hbreak => ?_
    obtain ⟨xs, hxs⟩ := breaks_of_breakWith hbreak
    exact ⟨xs, hxs.emits, hs.breaks hxs⟩
  | next value =>
    refine fun _ _ _ _ hs => builds_next fun hnexts => ?_
    exact .of_places hnexts.emits.before (hs.nexts hnexts)
  | redo =>
    refine fun _ _ _ _ hs => settles_lift fun hredo => ?_
    obtain ⟨xs, hxs⟩ := redoes_of_redo hredo
    exact ⟨xs, hxs.emits, hs.redoes hxs⟩
  | retry =>
    refine fun _ _ _ _ hs => settles_lift fun hretry => ?_
    obtain ⟨frame, hframe, hemits⟩ := emits_of_retry hretry
    have hentry := hs.rescues frame (List.mem_of_head? hframe)
    exact ⟨_, hemits, .plain_cons rfl (.plain_cons rfl (.jump (.inl hentry)))⟩
  | «return» value =>
    refine fun _ _ _ _ hs => settles_lift fun hreturn => ?_
    obtain ⟨xs, hxs⟩ := returns_of_returnWith hreturn
    exact ⟨xs, hxs.emits, hs.returns hxs⟩
  | zsuper block => exact fun _ _ _ _ hs => settles_bind hs settles_zsuper sound_done
  | block method body ih =>
    refine fun place _ _ _ _ => settles_apart (builds_block fun hopen => ?_)
    exact Builds.mono (ih _ (known_of_fresh hopen.fresh rfl)) fun _ _ _ _ _ _ => rfl
  | nested kind name body ih =>
    refine fun place _ _ _ _ => settles_apart (builds_child fun hopen => ?_)
    exact Builds.mono (ih _ (known_of_fresh hopen.fresh rfl)) fun _ _ _ _ _ _ => rfl

/-- What code adds to the list of a scope that it starts. -/
theorem placing_of_build {c : Code} {place : Nesting} {s t : Session} {h k : Trail}
    (hs : s.builder.Fresh) (hh : h.handed = []) (hbuild : Runs (c.build place) s h () t k) :
    ∃ xs, s.Emits t xs ∧ Placing [] s h t k xs :=
  (c.sound_build place (known_of_fresh hs hh)).result hbuild

end Code

section Stored

variable {s t u : Session} {id : ScopeId} {xs : List Instr}

/-- The list of a scope starts with its start label, if there is one. -/
theorem list_of_fresh (hs : s.builder.Fresh) (ht : s.Emits t xs) :
    withoutLines t.builder.instrs.toList = t.builder.prologue ++ withoutLines xs := by
  have hlist : withoutLines s.builder.instrs.toList = s.builder.prologue ++ [] := by
    rw [hs.list, List.append_nil, Builder.prologue]
    cases s.builder.closureStart <;> rfl
  simpa only [hs.ensureBodies, reduceIte, List.append_nil] using ht.list hlist

theorem start_of_fresh (hs : s.builder.Fresh) (ht : s.Emits t xs) {l : Label}
    (hl : t.builder.closureStart = some l) : l = s.builder.scope.startLabel := by
  have hstart : s.builder.closureStart = some l → l = s.builder.scope.startLabel := by
    intro hsame
    rcases hs.start with hnone | hsome
    · cases hnone.symm.trans hsame
    · exact Option.some.inj (hsame.symm.trans hsome)
  rcases ht.start with hsame | ⟨-, hsome⟩
  · exact hstart (hsame ▸ hl)
  · exact Option.some.inj (hl.symm.trans hsome)

/-- Only the start label and what code adds are placed in the list that is stored. -/
theorem wellPlaced_of_placing {h k : Trail} {front : List Instr} (hs : s.builder.Fresh)
    (ht : s.Emits t xs) (hxs : Placing [] s h t k xs)
    (hfront : ∀ i ∈ front, ∃ v, i = .loadImplicitClosure v) :
    WellPlaced (front ++ t.builder.instrs.toList) := by
  have hplain : ∀ i ∈ front, i.isPlain := by
    intro i hi
    obtain ⟨v, rfl⟩ := hfront i hi
    rfl
  have hlist := list_of_fresh hs ht
  have hplaced : placed (front ++ t.builder.instrs.toList) =
      t.builder.closureStart.toList ++ placed xs := by
    have hprologue : placed t.builder.prologue = t.builder.closureStart.toList := by
      rw [Builder.prologue]
      cases t.builder.closureStart <;> rfl
    have hnil : placed front = [] :=
      List.filterMap_eq_nil_iff.mpr fun i hi => Instr.label?_of_isPlain (hplain i hi)
    rw [placed_append, hnil, List.nil_append, ← placed_withoutLines, hlist, placed_append,
      hprologue, placed_withoutLines]
  have hneeded : needed (front ++ t.builder.instrs.toList) = needed xs := by
    have hprologue : needed t.builder.prologue = [] := by
      rw [Builder.prologue]
      cases t.builder.closureStart <;> rfl
    have hnil : needed front = [] :=
      List.filterMap_eq_nil_iff.mpr fun i hi => Instr.needs?_of_isPlain (hplain i hi)
    rw [needed_append, hnil, List.nil_append, ← needed_withoutLines, hlist, needed_append,
      hprologue, List.nil_append, needed_withoutLines]
  refine wellPlaced_of_count (fun l => ?_) fun l hl => ?_
  · rw [hplaced, List.count_append]
    have hle := hxs.places.count_le l
    cases hstart : t.builder.closureStart with
    | none =>
      rw [Option.toList_none, List.count_nil, Nat.zero_add]
      exact hle
    | some start =>
      rw [Option.toList_some]
      by_cases he : start = l
      · subst he
        -- a start label has a stem that no label of the code has
        have hnot : start ∉ placed xs := by
          intro hmem
          exact hxs.places.inner hmem _ (congrArg Label.stem (start_of_fresh hs ht hstart))
        rw [List.count_eq_zero.mpr hnot, List.count_singleton_self]
      · rw [List.count_cons_of_ne he, List.count_nil, Nat.zero_add]
        exact hle
  · rw [hneeded] at hl
    rw [hplaced, List.mem_append, Option.mem_toList]
    rcases hxs.places.needs hl with hl | hl | hl
    · exact .inr hl
    · cases hl
    · exact .inl hl

/-- Structured code that is built as a whole scope and finished leaves a list there in which labels
are placed as they should. -/
theorem wellPlaced_of_finish {c : Code} {place : Nesting} {h k : Trail} (hs : s.Starts)
    (hh : h.handed = []) (hbuild : TrailM.Runs (c.build place) s h () t k)
    (hfinish : t.Runs finish id u) : ∃ x xs, u.registry.scope? id = some x ∧
      x.instrs = some xs ∧ WellPlaced xs := by
  obtain ⟨xs, ht, hxs⟩ := Code.placing_of_build hs.fresh hh hbuild
  obtain ⟨front, hfinishes⟩ := finishes_of_finish hfinish
  obtain ⟨g, x, flags, -, hx, hstored⟩ := hfinishes.stores
  refine ⟨{ x with instrs := some (front ++ t.builder.instrs.toList), flags }, _, ?_, rfl,
    wellPlaced_of_placing hs.fresh ht hxs hfinishes.front_eq⟩
  rw [hstored, Registry.scope?_setScope_self hx]

/-- A block that runs again until a next leaves it, through a cleanup that retries. -/
def Code.redoAndNext : Code :=
  .ensure
    (.ifElse (.var .self) (.boolean true) .redo (.next .nil)) .nil
    (.rescue (.call .self .normal (.var .self) ⟨"close"⟩ [] .nullBlock ∅) .nil .retry .nil) .nil

theorem wellPlaced_of_finish_redoAndNext : ∃ t k u,
    (single .closure).Starts ∧
      TrailM.Runs (Code.redoAndNext.build ⟨.closure, []⟩) (single .closure) ⟨[], []⟩ () t k ∧
      t.Runs finish ⟨0⟩ u ∧
      ∃ x xs, u.registry.scope? ⟨0⟩ = some x ∧ x.instrs = some xs ∧ WellPlaced xs := by
  have hs := starts_single .closure
  have hbuild := TrailM.runs_of_ok (x := Code.redoAndNext.build ⟨.closure, []⟩)
    (s := single .closure) (h := ⟨[], []⟩) (a := ()) (by decide +kernel)
  have hfinish := Session.runs_of_ok (x := finish) (a := ⟨0⟩)
    (s := (Code.redoAndNext.build ⟨.closure, []⟩ (single .closure) ⟨[], []⟩).1.2)
    (by decide +kernel)
  exact ⟨_, _, _, hs, hbuild, hfinish, wellPlaced_of_finish hs rfl hbuild hfinish⟩

end Stored

end ScopeIR
