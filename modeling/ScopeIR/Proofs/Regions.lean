import ScopeIR.Proofs.Layout

/-! Regions of structured code. Whatever is built, the regions that are open in the lists at work are
those of the rescuers, and each construct is laid out for the site where it stands. -/

namespace ScopeIR

namespace Label

/-- New from the index on. -/
structure IsFrom (l : Label) (lo : Nat) : Prop where
  ge : lo ≤ l.index.toNat
  ne_unrescued : l ≠ .unrescued

theorem ne_unrescued_of_stem {l : Label} {stem : String} (h : l.stem = stem)
    (hne : stem ≠ unrescued.stem) : l ≠ .unrescued := by
  rintro rfl
  exact hne h.symm

theorem IsFrom.mono {l : Label} {lo lo' : Nat} (h : l.IsFrom lo) (hlo : lo' ≤ lo) : l.IsFrom lo' :=
  ⟨hlo.trans h.ge, h.ne_unrescued⟩

end Label

/-- The labels that are placed are new from the index on. -/
def PlacesFrom (lo : Nat) (xs : List Instr) : Prop := ∀ l ∈ placed xs, l.IsFrom lo

namespace PlacesFrom

variable {lo lo' : Nat} {l : Label} {i : Instr} {xs ys : List Instr}

theorem nil : PlacesFrom lo [] := fun _ hl => nomatch hl

theorem mono (h : PlacesFrom lo xs) (hlo : lo' ≤ lo) : PlacesFrom lo' xs :=
  fun l hl => (h l hl).mono hlo

theorem append (hx : PlacesFrom lo xs) (hy : PlacesFrom lo ys) : PlacesFrom lo (xs ++ ys) := by
  intro l hl
  rw [placed_append, List.mem_append] at hl
  exact hl.elim (hx l) (hy l)

theorem label (hl : l.IsFrom lo) (h : PlacesFrom lo xs) : PlacesFrom lo (.label l :: xs) := by
  intro m hm
  rw [placed_label, List.mem_cons] at hm
  rcases hm with rfl | hm
  · exact hl
  · exact h m hm

theorem cons (hi : i.label? = none) (h : PlacesFrom lo xs) : PlacesFrom lo (i :: xs) := by
  have hplaced : placed (i :: xs) = placed xs := List.filterMap_cons_none hi
  unfold PlacesFrom
  rw [hplaced]
  exact h

theorem of_unlabelled (h : ∀ i ∈ xs, i.label? = none) : PlacesFrom lo xs := by
  induction xs with
  | nil => exact .nil
  | cons i xs ih =>
    exact .cons (h i List.mem_cons_self) (ih fun j hj => h j (List.mem_cons_of_mem _ hj))

end PlacesFrom

theorem Instr.label?_of_isMove {i : Instr} (h : i.isMove) : i.label? = none := by
  cases i <;> first | rfl | cases h

/-- The frame was made where loops had numbers below the given one, and its body is built. -/
structure EnsureFrame.InOrder (frame : EnsureFrame) (nextLoop : Nat) : Prop where
  balanced : Balanced frame.instrs
  rescuer_lt : frame.rescuer.index.toNat < frame.bodyStart.index.toNat
  labels : PlacesFrom (frame.bodyStart.index.toNat + 1) frame.instrs
  loop_lt : ∀ id, frame.innermostLoop = some id → id.number < nextLoop

section Copies

open Session

variable {frame : EnsureFrame} {frames : List EnsureFrame} {s t : Session} {xs : List Instr}
  {n : Nat} {ρ : Renaming}

theorem EnsureFrame.InOrder.mono {m : Nat} (h : frame.InOrder n) (hm : n ≤ m) : frame.InOrder m :=
  ⟨h.balanced, h.rescuer_lt, h.labels, fun id hid => (h.loop_lt id hid).trans_le hm⟩

theorem Renaming.Freshens.keepsNames {first : Label} (hρ : ρ.Freshens first xs s t) :
    ρ.KeepsNames where
  temp {v} hv := by
    by_cases hhas : ρ.hasVar v
    · exact (hρ.var_new v hhas).1
    · rwa [var_of_not_hasVar (Bool.eq_false_iff.mpr hhas)]
  other {v} hv := by
    refine var_of_not_hasVar (Bool.eq_false_iff.mpr fun hhas => ?_)
    rw [((hρ.hasVar_iff v).mp hhas).1] at hv
    cases hv

theorem Renaming.Freshens.isCopy (hρ : ρ.Freshens frame.bodyStart frame.instrs s t)
    (hframe : frame.InOrder n) : IsCopy frame (frame.copy ρ) := by
  refine .full hρ.keepsNames (hρ.label_eq _ ?_)
  have hlt := hframe.rescuer_lt
  rintro (he | hmem)
  · rw [he] at hlt
    exact lt_irrefl _ hlt
  · have := (hframe.labels _ (mem_placed.mpr hmem)).ge
    omega

theorem Renaming.Freshens.placesFrom (hρ : ρ.Freshens frame.bodyStart frame.instrs s t) :
    PlacesFrom s.labels (frame.copy ρ) := by
  intro l hl
  rw [placed_copy] at hl
  obtain ⟨m, hm, rfl⟩ := List.mem_map.mp hl
  obtain ⟨hstem, hge, -⟩ := hρ.label_new m ((List.mem_cons.mp hm).imp_right mem_placed.mp)
  exact ⟨hge, ne_unrescued_of_lbl hstem⟩

theorem Session.Copies.isCopy (h : Copies frame s t xs) (hframe : frame.InOrder n) :
    IsCopy frame xs ∧ PlacesFrom s.labels xs := by
  cases h with
  | empty hnil _ => exact ⟨.empty hnil, .nil⟩
  | full hρ _ => exact ⟨hρ.isCopy hframe, hρ.placesFrom⟩

theorem Session.CopiesAll.areCopies (h : CopiesAll frames s t xs)
    (hframes : ∀ f ∈ frames, f.InOrder n) : AreCopies frames xs ∧ PlacesFrom s.labels xs := by
  induction h with
  | nil _ => exact ⟨.nil, .nil⟩
  | cons hcopy _ ih =>
    obtain ⟨hx, hxs⟩ := hcopy.isCopy (hframes _ List.mem_cons_self)
    obtain ⟨hy, hys⟩ := ih fun f hf => hframes f (List.mem_cons_of_mem _ hf)
    exact ⟨.cons hx hy, hxs.append (hys.mono hcopy.emits.labels_le)⟩

end Copies

/-- The regions that are open, innermost first, where the innermost of the bodies goes on. Each body
stands where its ensure was written, under the rescuer of that place. -/
inductive Opens (main : List Instr) : List EnsureFrame → List Label → Prop
  | main {opened : List Label} : regions [] main = some opened → Opens main [] opened
  | body {frame : EnsureFrame} {frames : List EnsureFrame} {opened inner : List Label} :
    Opens main frames opened → frame.rescuer = opened.headD .unrescued →
    regions [] frame.instrs = some inner → Opens main (frame :: frames) (inner ++ opened)

theorem Opens.of_main {main main' : List Instr} {frames : List EnsureFrame} {opened : List Label}
    (h : Opens main frames opened) (hmain : regions [] main' = regions [] main) :
    Opens main' frames opened := by
  induction h with
  | main h => exact .main (hmain.trans h)
  | body _ hrescuer hinner ih => exact .body ih hrescuer hinner

namespace Session

theorem MakesLabel.isFrom {s t : Session} {stem : String} {l : Label} (h : s.MakesLabel t stem l)
    (hstem : stem ≠ Label.unrescued.stem) : l.IsFrom s.labels :=
  ⟨h.ge, Label.ne_unrescued_of_stem h.stem_eq hstem⟩

/-- The site where the scope's builder is at work. -/
def site (s : Session) (kind : ScopeKind) : Site :=
  ⟨kind, s.builder.rescuer, s.builder.rescues, s.builder.ensures, s.builder.loops⟩

/-- A scope of this kind is at work, and the rescuers are those of the regions that are open. -/
structure InOrder (s : Session) (kind : ScopeKind) : Prop where
  own : ∃ x, s.registry.scope? s.builder.scope = some x ∧ x.kind = kind
  prologue : ∃ ys, withoutLines s.builder.instrs.toList = s.builder.prologue ++ ys
  opens : Opens s.builder.instrs.toList s.builder.ensureBodies s.builder.rescuers
  rescuers : ∀ l ∈ s.builder.rescuers, l.index.toNat < s.labels
  loops : ∀ f ∈ s.builder.loops, f.id.number < s.builder.nextLoop
  ensures : ∀ f ∈ s.builder.ensures, f.InOrder s.builder.nextLoop

variable {s t u : Session} {kind : ScopeKind} {xs : List Instr} {pushed : List Label} {c : Code}

theorem regions_prologue {b : Builder} : regions [] b.prologue = some [] := by
  rw [Builder.prologue]
  cases b.closureStart <;> rfl

theorem Adds.regions_eq (ht : s.Adds t xs)
    (hs : ∃ ys, withoutLines s.builder.instrs.toList = s.builder.prologue ++ ys) :
    regions [] t.builder.instrs.toList = (regions [] s.builder.instrs.toList).bind
      (regions · (if s.builder.ensureBodies = [] then xs else [])) := by
  obtain ⟨ys, hys⟩ := hs
  have hs : regions [] s.builder.instrs.toList = regions [] (s.builder.prologue ++ ys) := by
    rw [← hys, regions_withoutLines]
  rw [← regions_withoutLines, ht.list hys, hs, regions_append, regions_append, regions_append,
    regions_prologue, regions_prologue]
  refine Option.bind_congr fun opened _ => ?_
  split
  · exact regions_withoutLines
  · rfl

theorem Adds.opens (ht : s.Adds t xs) (hs : s.InOrder kind) (hxs : regions [] xs = some pushed) :
    Opens t.builder.instrs.toList t.builder.ensureBodies (pushed ++ s.builder.rescuers) := by
  have hmain := ht.regions_eq hs.prologue
  have hopens := hs.opens
  rw [ht.bodies]
  revert hmain
  generalize s.builder.ensureBodies = frames at hopens ⊢
  generalize s.builder.rescuers = rescuers at hopens ⊢
  cases hopens with
  | main hopens =>
    intro hmain
    refine .main ?_
    rw [hmain, hopens, Option.bind_some, if_pos rfl]
    exact regions_outer hxs
  | body hopens hrescuer hinner =>
    intro hmain
    rw [if_neg (List.cons_ne_nil _ _)] at hmain
    rw [← List.append_assoc]
    refine .body (hopens.of_main (hmain.trans (Option.bind_fun_some _))) hrescuer ?_
    rw [regions_append, hinner, Option.bind_some]
    exact regions_outer hxs

theorem Adds.own (ht : s.Adds t xs) (hs : s.InOrder kind) :
    ∃ x, t.registry.scope? t.builder.scope = some x ∧ x.kind = kind := by
  obtain ⟨x, hx, hkind⟩ := hs.own
  obtain ⟨y, hy, hxy⟩ := ht.registry.scope hx
  rw [ht.scope]
  exact ⟨y, hy, hxy.kind_eq.trans hkind⟩

theorem Emits.site_eq (h : s.Emits t xs) : t.site kind = s.site kind := by
  simp only [site, Builder.rescuer, h.sameStacks.rescuers, h.sameStacks.rescues, h.sameStacks.ensures,
    h.sameStacks.loops]

theorem Adds.areInOrder (ht : s.Adds t xs) (hs : s.InOrder kind) :
    ∀ f ∈ s.builder.ensures, f.InOrder t.builder.nextLoop :=
  fun f hf => (hs.ensures f hf).mono ht.nextLoop

theorem Adds.loops_lt (ht : s.Adds t xs) (hs : s.InOrder kind) :
    ∀ f ∈ s.builder.loops, f.id.number < t.builder.nextLoop :=
  fun f hf => (hs.loops f hf).trans_le ht.nextLoop

theorem Adds.rescuers_lt (ht : s.Adds t xs) (hs : s.InOrder kind) :
    ∀ l ∈ s.builder.rescuers, l.index.toNat < t.labels :=
  fun l hl => (hs.rescuers l hl).trans_le ht.labels_le

namespace InOrder

theorem balanced (hs : s.InOrder kind) : ∀ f ∈ (s.site kind).ensures, Balanced f.instrs :=
  fun f hf => (hs.ensures f hf).balanced

theorem adds (hs : s.InOrder kind) (ht : s.Adds t xs) (hxs : regions [] xs = some pushed)
    (hrescuers : t.builder.rescuers = pushed ++ s.builder.rescuers)
    (hpushed : ∀ l ∈ pushed, l.index.toNat < t.labels)
    (hloops : ∀ f ∈ t.builder.loops, f.id.number < t.builder.nextLoop)
    (hensures : ∀ f ∈ t.builder.ensures, f.InOrder t.builder.nextLoop) : t.InOrder kind where
  own := ht.own hs
  prologue := by
    obtain ⟨ys, hys⟩ := hs.prologue
    exact ⟨_, (ht.list hys).trans (List.append_assoc ..)⟩
  opens := hrescuers ▸ ht.opens hs hxs
  rescuers l hl := by
    rw [hrescuers, List.mem_append] at hl
    exact hl.elim (hpushed l) (ht.rescuers_lt hs l)
  loops := hloops
  ensures := hensures

theorem emits (hs : s.InOrder kind) (ht : s.Emits t xs) (hxs : Balanced xs) : t.InOrder kind :=
  hs.adds ht.toAdds hxs ht.sameStacks.rescuers (fun _ hl => nomatch hl)
    (ht.sameStacks.loops ▸ ht.loops_lt hs) (ht.sameStacks.ensures ▸ ht.areInOrder hs)

/-- Code that was built as it should leaves no region open. -/
theorem after (hs : s.InOrder kind) (ht : s.Emits t xs) (hxs : Laid (s.site kind) c xs) :
    t.InOrder kind := hs.emits ht (hxs.balanced hs.balanced)

theorem rescuer_lt {l : Label} (hs : s.InOrder kind) (hl : s.labels < l.index.toNat) :
    s.builder.rescuer.index.toNat < l.index.toNat := by
  have hrescuers := hs.rescuers
  unfold Builder.rescuer
  cases hr : s.builder.rescuers with
  | nil => exact (Nat.zero_le _).trans_lt hl
  | cons m ms => exact (hrescuers m (hr ▸ List.mem_cons_self)).trans hl

end InOrder

section Opening

variable {frame : EnsureFrame}

theorem OpensLoop.inOrder {frame : LoopFrame} {setResult : Label}
    (ht : s.OpensLoop t frame setResult) (hs : s.InOrder kind) : t.InOrder kind := by
  have hregions : regions [] [.label frame.loopStart] = some [] := rfl
  refine hs.adds ht.toAdds hregions ht.rescuers (fun _ hl => nomatch hl) ?_
    (ht.ensures ▸ ht.areInOrder hs)
  rw [ht.loops]
  exact List.forall_mem_cons.mpr ⟨ht.id_lt, ht.loops_lt hs⟩

theorem OpensLoop.site_eq {frame : LoopFrame} {setResult : Label}
    (ht : s.OpensLoop t frame setResult) : t.site kind = (s.site kind).inLoop frame := by
  simp only [site, Site.inLoop, Builder.rescuer, ht.rescuers, ht.rescues, ht.ensures, ht.loops]

/-- A new loop has a number that no frame knows of. -/
theorem OpensLoop.isNew {frame : LoopFrame} {setResult : Label}
    (ht : s.OpensLoop t frame setResult) (hs : s.InOrder kind) :
    ∀ f ∈ (s.site kind).ensures, f.innermostLoop ≠ some frame.id := by
  intro f hf hid
  have := (hs.ensures f hf).loop_lt _ hid
  have := ht.id_ge
  omega

/-- A body is built in a list of its own, which stands under the rescuer of its place. -/
theorem NewEnsure.inOrder (ht : s.NewEnsure t frame) (hs : s.InOrder kind) :
    (t.entering frame).InOrder kind := by
  have ht' := hs.emits ht.toEmits .nil
  refine ⟨ht'.own, ht'.prologue, ?_, ht'.rescuers, ht'.loops, ht'.ensures⟩
  have hinner : regions [] frame.instrs = some [] := by
    rw [ht.instrs_eq]
    rfl
  refine .body ht'.opens ?_ hinner
  rw [ht.rescuer_eq]
  exact congrArg (·.headD .unrescued) ht.sameStacks.rescuers.symm

theorem NewEnsure.site_eq (ht : s.NewEnsure t frame) :
    (t.entering frame).site kind = s.site kind := ht.toEmits.site_eq (t := t)

/-- The frame is in order once its body is built. -/
theorem NewEnsure.filled {ys : List Instr} (ht : s.NewEnsure t frame) (hs : s.InOrder kind)
    (hys : Balanced ys) (hlabels : PlacesFrom t.labels ys) :
    (frame.filled ys).InOrder s.builder.nextLoop where
  balanced := hys
  rescuer_lt := by
    change frame.rescuer.index.toNat < frame.bodyStart.index.toNat
    rw [ht.rescuer_eq]
    exact hs.rescuer_lt (ht.ge.trans_lt ht.lt_bodyStart)
  labels := by
    refine hlabels.mono ?_
    have := ht.lt_bodyEnd
    have := ht.lt_dummyRescue
    have := ht.lt
    change frame.bodyStart.index.toNat + 1 ≤ _
    omega
  loop_lt id hid := by
    change frame.innermostLoop = some id at hid
    rw [ht.innermostLoop_eq, Option.map_eq_some_iff] at hid
    obtain ⟨loop, hloop, rfl⟩ := hid
    exact hs.loops loop (List.mem_of_head? hloop)

theorem OpensRegion.inOrder (ht : s.OpensRegion t frame) (hs : s.InOrder kind)
    (hframe : frame.InOrder s.builder.nextLoop)
    (hdummy : frame.dummyRescue.index.toNat < s.labels) : t.InOrder kind := by
  have hregions : regions [] [.label frame.regionStart, .regionStart frame.dummyRescue] =
      some [frame.dummyRescue] := rfl
  refine hs.adds ht.toAdds hregions ht.rescuers ?_ (ht.loops ▸ ht.loops_lt hs) ?_
  · exact List.forall_mem_singleton.mpr (hdummy.trans_le ht.labels_le)
  · rw [ht.ensures]
    exact List.forall_mem_cons.mpr ⟨hframe.mono ht.nextLoop, ht.areInOrder hs⟩

theorem OpensRegion.site_eq (ht : s.OpensRegion t frame) :
    t.site kind = (s.site kind).inEnsure frame := by
  simp only [site, Site.inEnsure, Builder.rescuer, ht.rescuers, ht.rescues, ht.ensures, ht.loops,
    List.headD_cons]

theorem OpensRescue.inOrder {frame : RescueFrame} {rescuer after : Label}
    (ht : s.OpensRescue t frame rescuer after) (hs : s.InOrder kind) : t.InOrder kind := by
  have hregions : regions [] [.getGlobal frame.savedException BuildT.currentException,
      .label frame.entry, .regionStart rescuer] = some [rescuer] := rfl
  refine hs.adds ht.toAdds hregions ht.rescuers ?_ (ht.loops ▸ ht.loops_lt hs)
    (ht.ensures ▸ ht.areInOrder hs)
  exact List.forall_mem_singleton.mpr (ht.lt_after.trans ht.lt)

theorem OpensRescue.site_eq {frame : RescueFrame} {rescuer after : Label}
    (ht : s.OpensRescue t frame rescuer after) : t.site kind = (s.site kind).inRescue rescuer := by
  simp only [site, Site.inRescue, Builder.rescuer, ht.rescuers, ht.rescues, ht.ensures, ht.loops,
    List.headD_cons]

/-- The rescuer of the body is none of the handler's. -/
theorem EntersHandler.inOrder {frame : RescueFrame} {rescuer after : Label} {s₁ s₂ : Session}
    {ys : List Instr} (ht : s₂.EntersHandler t frame (.regionEnd :: ys)) (hs : s.InOrder kind)
    (hopen : s.OpensRescue s₁ frame rescuer after) (hxs : s₁.Emits s₂ xs) (hx : Balanced xs)
    (hy : Balanced ys) : t.InOrder kind ∧ t.site kind = (s.site kind).inHandler frame := by
  have hadds := (hopen.toAdds.trans hxs.toAdds).trans ht.toAdds
  have hregions : Balanced ([.getGlobal frame.savedException BuildT.currentException,
      .label frame.entry, .regionStart rescuer] ++ xs ++ .regionEnd :: ys) :=
    .cons rfl (.cons rfl (hx.region hy))
  have hrescuers : t.builder.rescuers = s.builder.rescuers := by
    rw [ht.rescuers, hxs.sameStacks.rescuers, hopen.rescuers, List.tail_cons]
  have hensures : t.builder.ensures = s.builder.ensures := by
    rw [ht.ensures, hxs.sameStacks.ensures, hopen.ensures]
  have hloops : t.builder.loops = s.builder.loops := by
    rw [ht.loops, hxs.sameStacks.loops, hopen.loops]
  refine ⟨hs.adds hadds hregions hrescuers (fun _ hl => nomatch hl) (hloops ▸ hadds.loops_lt hs)
    (hensures ▸ hadds.areInOrder hs), ?_⟩
  simp only [site, Site.inHandler, Builder.rescuer, hrescuers, hensures, hloops, ht.rescues,
    hxs.sameStacks.rescues, hopen.rescues]

end Opening

end Session

section Exits

open Session

variable {s t : Session} {kind : ScopeKind} {xs : List Instr} {value : Operand}

theorem Session.InOrder.passed (hs : s.InOrder kind) {loop : Option LoopId} :
    ∀ f ∈ passedEnsures loop s.builder.ensures, f.InOrder s.builder.nextLoop :=
  fun f hf => hs.ensures f (mem_of_mem_passedEnsures hf)

/-- The scope of a session is of one kind. -/
theorem Session.InOrder.kind_eq (hs : s.InOrder kind) {x : Scope}
    (hx : s.registry.scope? s.builder.scope = some x) : x.kind = kind := by
  obtain ⟨y, hy, hkind⟩ := hs.own
  cases hx.symm.trans hy
  exact hkind

theorem Session.InOrder.breaks (hs : s.InOrder kind) (h : s.Breaks value t xs) :
    Laid (s.site kind) (.break value) xs ∧ PlacesFrom s.labels xs := by
  cases h with
  | loop hframe hcopies _ =>
    obtain ⟨hcs, hplaces⟩ := hcopies.areCopies hs.passed
    exact ⟨.breakLoop hframe hcs, hplaces.append (.cons rfl (.cons rfl .nil))⟩
  | block hloops hx hkind _ =>
    exact ⟨.breakBlock hloops (hs.kind_eq hx ▸ hkind), .cons rfl .nil⟩

theorem Session.InOrder.nexts (hs : s.InOrder kind) (h : s.Nexts value t xs) :
    Laid (s.site kind) (.next value) xs ∧ PlacesFrom s.labels xs := by
  cases h with
  | loop hframe hcopies _ =>
    obtain ⟨hcs, hplaces⟩ := hcopies.areCopies hs.passed
    exact ⟨.nextLoop hframe hcs, hplaces.append (.cons rfl .nil)⟩
  | block hloops hcopies hx hkind hret =>
    obtain ⟨y, hy, hykind⟩ := (hcopies.emits.trans hret).toAdds.own hs
    cases hx.symm.trans hy
    obtain ⟨hcs, hplaces⟩ := hcopies.areCopies hs.ensures
    exact ⟨.nextBlock hloops (hykind ▸ hkind) hcs, hplaces.append (.cons rfl (.cons rfl .nil))⟩

theorem Session.InOrder.redoes (h : s.Redoes t xs) :
    Laid (s.site kind) .redo xs ∧ PlacesFrom s.labels xs := by
  cases h with
  | loop hframe _ => exact ⟨.redoLoop hframe, .cons rfl .nil⟩
  | block hloops _ _ => exact ⟨.redoBlock hloops, .cons rfl (.cons rfl .nil)⟩

theorem Session.InOrder.returns (hs : s.InOrder kind) (h : s.Returns value t xs) :
    Laid (s.site kind) (.return value) xs ∧ PlacesFrom s.labels xs := by
  cases h with
  | transfer hx hkind hplain _ =>
    exact ⟨.returnTransfer (hs.kind_eq hx ▸ hkind) hplain,
      .of_unlabelled fun i hi => Instr.label?_of_isPlain (hplain i hi)⟩
  | plain hensures _ => exact ⟨.returnPlain hensures, .cons rfl .nil⟩
  | copies hcopy hcopies _ =>
    obtain ⟨hcs, hplaces⟩ := hcopies.areCopies hs.ensures
    exact ⟨.returnCopies hcs,
      .append (.cons rfl (hplaces.mono hcopy.labels_le)) (.cons rfl .nil)⟩

end Exits

namespace TrailM

open Session

variable {α : Type} {kind : ScopeKind} {c : Code} {s : Session} {h : Trail}

/-- The list that the action adds is the code's, laid out for the site, and the sessions on the way
are in order. -/
abbrev Lays (kind : ScopeKind) (c : Code) (s : Session) (h : Trail) (x : TrailM α) : Prop :=
  x.Builds s h (fun p => p.2.InOrder kind) fun _ _ _ xs =>
    Laid (s.site kind) c xs ∧ PlacesFrom s.labels xs

/-- Lays out the code wherever things are in order. -/
abbrev LaysOut (kind : ScopeKind) (c : Code) (x : TrailM Unit) : Prop :=
  ∀ {s : Session} {h : Trail}, s.InOrder kind → Lays kind c s h x

theorem lays_lift {x : SessionM α} (hx : ∀ {a t}, s.Runs x a t →
    ∃ xs, s.Emits t xs ∧ Laid (s.site kind) c xs ∧ PlacesFrom s.labels xs) :
    Lays kind c s h (liftM x : TrailM α) := Builds.lift hx

theorem lays_then_done {x : TrailM α} (hx : Lays kind c s h x) :
    Lays kind c s h (do let _ ← x) := by
  refine Builds.bind (Builds.mono hx fun _ hlaid => Builds.pure ?_)
  rw [List.append_nil]
  exact hlaid

theorem lays_withHanded {target : Nat} {act : Label → SessionM Unit} (hc : c.isMove)
    (hact : ∀ {l t}, s.Runs (act l) () t → ∃ i, i.isMove ∧ s.Emits t [i]) :
    Lays kind c s h (withHanded target act) := by
  refine builds_withHanded (fun _ hr => ?_) fun _ => ⟨.move hc fun _ hi => (nomatch hi), .nil⟩
  obtain ⟨i, hi, hemit⟩ := hact hr
  exact ⟨[i], hemit, .move hc (List.forall_mem_singleton.mpr hi),
    .cons (Instr.label?_of_isMove hi) .nil⟩

theorem laysOut_seq {first rest : Code} {x y : TrailM Unit} (hx : LaysOut kind first x)
    (hy : LaysOut kind rest y) : LaysOut kind (.seq first rest) (do x; y) := by
  intro s h hs
  refine Builds.bind (Builds.mono (hx hs) fun hxs ⟨hx, hpx⟩ => ?_)
  refine Builds.mono (hy (hs.after hxs hx)) fun hys ⟨hy, hpy⟩ => ?_
  rw [hxs.site_eq] at hy
  exact ⟨.seq hx hy, hpx.append (hpy.mono hxs.labels_le)⟩

theorem laysOut_ifElse {value test : Operand} {yes no : Code} {x y : TrailM Unit}
    (hx : LaysOut kind yes x) (hy : LaysOut kind no y) :
    LaysOut kind (.ifElse value test yes no) (BuildT.ifElse value test x y) := by
  intro s h hs
  refine builds_ifElse fun {e n s₁ s₂ s₃} he hn hbranch => ?_
  have hs₃ := (he.toEmits.trans hn.toEmits).trans hbranch
  have hmove : (Instr.branchUnlessEqual e value test).isMove := isMove_branchUnlessEqual
  have hin := hs.emits hs₃ (.cons (Instr.isInside_of_isMove hmove) .nil)
  refine Builds.mono (hx hin) fun {_ s₄ k xs} hxs ⟨hx, hpx⟩ => fun hmiddle => ?_
  have hin' := (hin.after hxs hx).emits hmiddle rfl
  refine Builds.mono (hy hin') fun hys ⟨hy, hpy⟩ => fun hlabel => ?_
  rw [hs₃.site_eq] at hx
  rw [(hxs.trans hmiddle).site_eq, hs₃.site_eq] at hy
  refine ⟨.ifElse hx hy, .append (.append (.cons (Instr.label?_of_isMove hmove) ?_) ?_) ?_⟩
  · exact hpx.mono hs₃.labels_le
  · refine .cons rfl (.label (he.isFrom (by decide)) (hpy.mono ?_))
    exact hs₃.labels_le.trans (hxs.trans hmiddle).labels_le
  · exact .label ((hn.isFrom (by decide)).mono he.labels_le) .nil

/-- The labels of a loop are new. -/
theorem isFrom_of_opensLoop {frame : LoopFrame} {setResult : Label} {t : Session}
    (ht : s.OpensLoop t frame setResult) :
    frame.loopStart.IsFrom s.labels ∧ frame.loopEnd.IsFrom s.labels ∧
      frame.iterStart.IsFrom s.labels ∧ frame.iterEnd.IsFrom s.labels ∧
      setResult.IsFrom s.labels := by
  obtain ⟨h₁, h₂, h₃, h₄, h₅⟩ := ht.stems
  have hge := ht.ge
  have := ht.lt_loopEnd
  have := ht.lt_iterStart
  have := ht.lt_iterEnd
  have := ht.lt_setResult
  refine ⟨⟨hge, ?_⟩, ⟨by omega, ?_⟩, ⟨by omega, ?_⟩, ⟨by omega, ?_⟩, ⟨by omega, ?_⟩⟩
  · exact Label.ne_unrescued_of_stem h₁ (by decide)
  · exact Label.ne_unrescued_of_stem h₂ (by decide)
  · exact Label.ne_unrescued_of_stem h₃ (by decide)
  · exact Label.ne_unrescued_of_stem h₄ (by decide)
  · exact Label.ne_unrescued_of_stem h₅ (by decide)

theorem lays_loop {condition body : Code} {value : Operand} {goOn testFirst : Bool}
    {x y : TrailM Unit} (hx : LaysOut kind condition x) (hy : LaysOut kind body y)
    (hs : s.InOrder kind) : Lays kind (.loop condition value body goOn testFirst) s h
      (BuildT.loop (do x; return value) y goOn testFirst : TrailM Operand) := by
  cases testFirst with
  | true =>
    refine builds_loop_testFirst fun {frame setResult s₁} hopen => ?_
    obtain ⟨hstart, hend, hiter, hnext, hset⟩ := isFrom_of_opensLoop hopen
    have hin := hopen.inOrder hs
    refine builds_value (Builds.mono (hx hin) fun {_ s₂ k xs} hxs hlaid => ?_)
    intro i s₃ hi hmiddle
    obtain ⟨hx, hpx⟩ := hlaid
    have hmove := isMove_of_branchIf hi
    have hin' := (hin.after hxs hx).emits hmiddle (.cons (Instr.isInside_of_isMove hmove) rfl)
    refine Builds.mono (hy hin') fun {_ s₄ k' ys} hys hlaid => ?_
    intro t hclose
    obtain ⟨hy, hpy⟩ := hlaid
    rw [hopen.site_eq] at hx
    rw [(hxs.trans hmiddle).site_eq, hopen.site_eq] at hy
    refine ⟨.loopFirst (hopen.isNew hs) hi hx hy, .append (.append (.label hstart ?_) ?_) ?_⟩
    · exact hpx.mono hopen.labels_le
    · refine .cons (Instr.label?_of_isMove hmove) (.label hiter (.cons rfl (hpy.mono ?_)))
      exact hopen.labels_le.trans (hxs.trans hmiddle).labels_le
    · exact .label hnext (.cons rfl (.label hset (.cons rfl (.label hend .nil))))
  | false =>
    refine builds_loop_testLast fun {frame setResult s₁ s₂} hopen hbegin => ?_
    obtain ⟨hstart, hend, hiter, hnext, hset⟩ := isFrom_of_opensLoop hopen
    have hin := (hopen.inOrder hs).emits hbegin rfl
    refine Builds.mono (hy hin) fun {_ s₃ k ys} hys hlaid => fun {s₄} hmiddle => ?_
    obtain ⟨hy, hpy⟩ := hlaid
    have hin' := (hin.after hys hy).emits hmiddle rfl
    refine builds_value (Builds.mono (hx hin') fun {_ s₅ k' xs} hxs hlaid => ?_)
    intro i t hi hclose
    obtain ⟨hx, hpx⟩ := hlaid
    have hmove := isMove_of_branchIf hi
    rw [hbegin.site_eq, hopen.site_eq] at hy
    rw [(hys.trans hmiddle).site_eq, hbegin.site_eq, hopen.site_eq] at hx
    have hbefore := hopen.labels_le.trans hbegin.labels_le
    refine ⟨.loopLast (hopen.isNew hs) hi hy hx, .append (.append (.label hstart ?_) ?_) ?_⟩
    · exact .label hiter (.cons rfl (hpy.mono hbefore))
    · exact .label hnext (hpx.mono (hbefore.trans (hys.trans hmiddle).labels_le))
    · refine .cons (Instr.label?_of_isMove hmove) (.label hset (.cons rfl ?_))
      exact .label hend .nil

/-- The labels of an ensure are new. -/
theorem isFrom_of_newEnsure {frame : EnsureFrame} {t : Session} (ht : s.NewEnsure t frame) :
    frame.regionStart.IsFrom s.labels ∧ frame.bodyStart.IsFrom s.labels ∧
      frame.bodyEnd.IsFrom s.labels ∧ frame.dummyRescue.IsFrom s.labels := by
  have hne : ∀ l ∈ [frame.regionStart, frame.bodyStart, frame.bodyEnd, frame.dummyRescue],
      l ≠ .unrescued := fun l hl => ne_unrescued_of_lbl (ht.stems l hl)
  simp only [List.mem_cons, List.not_mem_nil, or_false, forall_eq_or_imp, forall_eq] at hne
  have hge := ht.ge
  have := ht.lt_bodyStart
  have := ht.lt_bodyEnd
  have := ht.lt_dummyRescue
  exact ⟨⟨hge, hne.1⟩, ⟨by omega, hne.2.1⟩, ⟨by omega, hne.2.2.1⟩, ⟨by omega, hne.2.2.2⟩⟩

theorem lays_ensure {body cleanup : Code} {value unused : Operand} {x y : TrailM Unit}
    (hx : LaysOut kind body x) (hy : LaysOut kind cleanup y) (hs : s.InOrder kind) :
    Lays kind (.ensure body value cleanup unused) s h
      (BuildT.ensure (do x; return value) (do y; return unused) : TrailM Operand) := by
  refine builds_ensure fun {frame s₁} hframe => ?_
  obtain ⟨hstart, hbody, hend, hdummy⟩ := isFrom_of_newEnsure hframe
  -- the cleanup is built before the body, and for the site of the ensure itself
  refine builds_value (Builds.mono (hy (hframe.inOrder hs)) fun {_ s₂ k ys} hys hlaid => ?_)
  intro result s₃ hopen
  obtain ⟨hy, hpy⟩ := hlaid
  obtain ⟨hleave, -⟩ := hys.leaving
  have hleave := hframe.toEmits.trans hleave
  have hin := hs.emits hleave .nil
  rw [hframe.site_eq] at hy
  have hfilled := hframe.filled hs (hy.balanced hs.balanced) hpy
  have hin' := hopen.inOrder hin (hfilled.mono hleave.nextLoop)
    (hframe.lt.trans_le hys.labels_le)
  refine builds_value (Builds.mono (hx hin') fun {_ s₄ k' xs} hxs hlaid => ?_)
  intro exception s₅ s₆ t cs hclose hcopies htail
  obtain ⟨hx, hpx⟩ := hlaid
  obtain ⟨hcopy, hpc⟩ := hcopies.isCopy hfilled
  rw [hopen.site_eq, hleave.site_eq] at hx
  have h₃ := hleave.labels_le.trans hopen.labels_le
  have h₅ := (h₃.trans hxs.labels_le).trans hclose.labels_le
  refine ⟨.ensure hframe.rescuer_eq hframe.innermostLoop_eq hy hx hcopy,
    .append (.append (.append ?_ ?_) ?_) ?_⟩
  · exact .label hstart (.cons rfl (hpx.mono h₃))
  · exact .cons rfl (.cons rfl (hpc.mono h₅))
  · refine .cons rfl (.label hdummy (.cons rfl (.label hbody (hpy.mono ?_))))
    exact hframe.labels_le
  · exact .cons rfl (.label hend .nil)

theorem lays_rescue {body handler : Code} {value handled : Operand} {x y : TrailM Unit}
    (hx : LaysOut kind body x) (hy : LaysOut kind handler y) (hs : s.InOrder kind) :
    Lays kind (.rescue body value handler handled) s h
      (BuildT.rescue (do x; return value)
        fun _ => do y; return handled : TrailM Operand) := by
  refine builds_rescue fun {frame rescuer after} result {s₁} hopen => ?_
  have hin := hopen.inOrder hs
  refine builds_value (Builds.mono (hx hin) fun {_ s₂ k xs} hxs hlaid => ?_)
  intro exception s₃ henter
  obtain ⟨hx, hpx⟩ := hlaid
  obtain ⟨hin', hsite⟩ := henter.inOrder hs hopen hxs (hx.balanced hin.balanced) rfl
  refine builds_value (Builds.mono (hy hin') fun {_ s₄ k' ys} hys hlaid => ?_)
  intro t hleave
  obtain ⟨hy, hpy⟩ := hlaid
  rw [hopen.site_eq] at hx
  rw [hsite] at hy
  have hge := hopen.ge
  have hlt := hopen.lt_rescuer
  have hlt' := hopen.lt_after
  have hne : ∀ l ∈ [frame.entry, rescuer, after], l ≠ .unrescued :=
    fun l hl => ne_unrescued_of_lbl (hopen.stems l hl)
  simp only [List.mem_cons, List.not_mem_nil, or_false, forall_eq_or_imp, forall_eq] at hne
  obtain ⟨hentry, hrescuer, hafter⟩ := hne
  have h₃ := (hopen.labels_le.trans hxs.labels_le).trans henter.labels_le
  refine ⟨.rescue hx hy, .append (.append ?_ ?_) ?_⟩
  · exact .cons rfl (.label ⟨hge, hentry⟩ (.cons rfl (hpx.mono hopen.labels_le)))
  · refine .cons rfl (.cons rfl (.cons rfl (.label ⟨by omega, hrescuer⟩ (.cons rfl ?_))))
    exact hpy.mono h₃
  · exact .cons rfl (.label ⟨by omega, hafter⟩ .nil)

end TrailM

namespace Code

/-- Made of single instructions, exits and the constructs that they leave or protect. -/
def IsStructured : Code → Prop
  | done | mark | temp | note _ | emit _ | call .. | jump _ | branch .. | cond .. | condNe ..
  | .break _ | next _ | redo | retry | .return _ => True
  | seq first rest => first.IsStructured ∧ rest.IsStructured
  | ifElse _ _ yes no => yes.IsStructured ∧ no.IsStructured
  | loop condition _ body _ _ => condition.IsStructured ∧ body.IsStructured
  | ensure body _ cleanup _ => body.IsStructured ∧ cleanup.IsStructured
  | rescue body _ handler _ => body.IsStructured ∧ handler.IsStructured
  | _ => False

open TrailM Session

theorem laysOut_build {kind : ScopeKind} (c : Code) (hc : c.IsStructured) :
    ∀ place, LaysOut kind c (c.build place) := by
  induction c with
  | done => exact fun _ _ _ _ => Builds.pure ⟨.done, .nil⟩
  | seq first rest ihFirst ihRest =>
    exact fun place => laysOut_seq (ihFirst hc.1 place) (ihRest hc.2 place)
  | mark => exact fun _ s _ hs => Yields.mark hs ⟨[], Emits.refl s, .mark, .nil⟩
  | temp =>
    refine fun _ _ _ _ => lays_then_done (lays_lift fun htemp => ?_)
    exact ⟨[], (takesTemp_of_temp htemp).toEmits, .temp, .nil⟩
  | note line => exact fun _ _ _ _ => lays_lift fun hnote => ⟨[], emits_of_noteLine hnote, .note, .nil⟩
  | emit i =>
    refine fun _ _ _ _ => lays_lift fun hemit => ⟨[i.1], emits_of_emit hemit, .emit, ?_⟩
    exact .cons (Instr.label?_of_isPlain i.2) .nil
  | call result type receiver name args given flags =>
    refine fun _ _ _ _ => lays_then_done (lays_lift fun hcall => ?_)
    obtain ⟨-, refined, hemit⟩ := runs_call hcall
    exact ⟨_, hemit, .call, .cons rfl .nil⟩
  | jump target =>
    exact fun _ _ _ _ => lays_withHanded rfl fun hjump => ⟨_, rfl, emits_of_emit hjump⟩
  | branch op target value test =>
    exact fun _ _ _ _ => lays_withHanded rfl fun hbranch => ⟨_, rfl, emits_of_emit hbranch⟩
  | cond target value test =>
    refine fun _ _ _ _ => lays_withHanded rfl fun hcond => ?_
    obtain ⟨i, hi, hemit⟩ := emits_of_cond hcond
    exact ⟨i, isMove_of_branchIf hi, hemit⟩
  | condNe target value test =>
    exact fun _ _ _ _ => lays_withHanded rfl fun hbranch =>
      ⟨_, isMove_branchUnlessEqual, emits_of_emit hbranch⟩
  | ifElse value test yes no ihYes ihNo =>
    exact fun place => laysOut_ifElse (ihYes hc.1 place) (ihNo hc.2 place)
  | loop condition value body goOn testFirst ihCondition ihBody =>
    exact fun place _ _ hs =>
      lays_then_done (lays_loop (ihCondition hc.1 place) (ihBody hc.2 place) hs)
  | ensure body value cleanup unused ihBody ihCleanup =>
    exact fun place _ _ hs =>
      lays_then_done (lays_ensure (ihBody hc.1 place) (ihCleanup hc.2 place) hs)
  | rescue body value handler handled ihBody ihHandler =>
    exact fun place _ _ hs =>
      lays_then_done (lays_rescue (ihBody hc.1 place) (ihHandler hc.2 place) hs)
  | «break» value =>
    refine fun _ _ _ hs => lays_lift fun hbreak => ?_
    obtain ⟨xs, hxs⟩ := breaks_of_breakWith hbreak
    exact ⟨xs, hxs.emits, hs.breaks hxs⟩
  | next value => exact fun _ _ _ hs => builds_next fun hnexts => hs.nexts hnexts
  | redo =>
    refine fun _ _ _ _ => lays_lift fun hredo => ?_
    obtain ⟨xs, hxs⟩ := redoes_of_redo hredo
    exact ⟨xs, hxs.emits, InOrder.redoes hxs⟩
  | retry =>
    refine fun _ _ _ _ => lays_lift fun hretry => ?_
    obtain ⟨frame, hframe, hemits⟩ := emits_of_retry hretry
    exact ⟨_, hemits, .retry hframe, .cons rfl (.cons rfl (.cons rfl .nil))⟩
  | «return» value =>
    refine fun _ _ _ hs => lays_lift fun hreturn => ?_
    obtain ⟨xs, hxs⟩ := returns_of_returnWith hreturn
    exact ⟨xs, hxs.emits, hs.returns hxs⟩
  | ifNot | forLoop | times | labelled | zsuper | block | nested => exact hc.elim

end Code

/-- Behind `front`, which stands where these regions are open, what is outside of the body's own
regions is covered by the label. -/
def StandsUnder (l : Label) (opened : List Label) (front body : List Instr) : Prop :=
  ∀ ys zs, body = ys ++ zs → regions [] ys = some [] →
    ∃ around, regions opened (front ++ ys) = some around ∧ around.headD .unrescued = l

theorem standsUnder_of_front {l : Label} {opened around : List Label} {front body : List Instr}
    (hfront : regions opened front = some around) (hl : around.headD .unrescued = l) :
    StandsUnder l opened front body := by
  intro ys zs _ hys
  refine ⟨around, ?_, hl⟩
  rw [regions_append, hfront, Option.bind_some]
  exact regions_outer hys

/-- In every copy the body stands under the rescuer of the place where its ensure was written. -/
def EnsureFrame.CoversCopies (frame : EnsureFrame) : Prop :=
  ∀ cs opened, IsCopy frame cs → cs = [] ∨ ∃ (ρ : Renaming) (front rest : List Instr),
    cs = front ++ frame.instrs.map (·.rename ρ) ++ rest ∧
      StandsUnder frame.rescuer opened front (frame.instrs.map (·.rename ρ))

theorem EnsureFrame.coversCopies (frame : EnsureFrame) : frame.CoversCopies := by
  intro cs opened hcs
  cases hcs with
  | empty _ => exact .inl rfl
  | @full ρ _ _ =>
    exact .inr ⟨ρ, [.label (ρ.label frame.bodyStart), .regionStart frame.rescuer], [.regionEnd], rfl,
      standsUnder_of_front rfl rfl⟩

/-- What is built where the session stands is laid out there, and if it is an ensure, then its body
stands under the rescuer, as it was built and in all copies. -/
structure Session.LaysOut (s : Session) (kind : ScopeKind) (c : Code) (xs : List Instr) : Prop where
  balanced : Balanced xs
  laid : Laid (s.site kind) c xs
  ensures {body cleanup : Code} {value unused : Operand} : c = .ensure body value cleanup unused →
    ∃ (frame : EnsureFrame) (front rest : List Instr), xs = front ++ frame.instrs ++ rest ∧
      Balanced frame.instrs ∧ frame.rescuer = s.builder.rescuer ∧ frame.CoversCopies ∧
      StandsUnder frame.rescuer s.builder.rescuers front frame.instrs

theorem Session.InOrder.laysOut {s : Session} {kind : ScopeKind} {c : Code} {xs : List Instr}
    (hs : s.InOrder kind) (h : Laid (s.site kind) c xs) : s.LaysOut kind c xs where
  balanced := h.balanced hs.balanced
  laid := h
  ensures {body cleanup value unused} hc := by
    subst hc
    cases h with
    | move hc _ => cases hc
    | @ensure _ _ _ _ _ frame result exception xs cs hrescuer _ hcleanup hbody hcopy =>
      have hinstrs := hcleanup.balanced hs.balanced
      have hxs := hbody.balanced (List.forall_mem_cons.mpr ⟨hinstrs, hs.balanced⟩)
      have hfront : Balanced (.label frame.regionStart :: .regionStart frame.dummyRescue :: xs ++
          .regionEnd :: .copy result value :: cs ++ [.jump frame.bodyEnd,
          .label frame.dummyRescue, .receiveException exception, .label frame.bodyStart]) :=
        .append (.cons rfl (hxs.region ((hcopy.balanced hinstrs).cons rfl))) rfl
      refine ⟨frame, _, [.raise exception, .label frame.bodyEnd], ?_, hinstrs, hrescuer,
        frame.coversCopies, standsUnder_of_front hfront.regions_eq hrescuer.symm⟩
      simp only [List.append_assoc, List.cons_append, List.nil_append]

section Whole

open Session TrailM

variable {s t : Session}

theorem Session.Starts.inOrder (hs : s.Starts) : ∃ kind, s.InOrder kind := by
  have hfresh := hs.fresh
  have hown : ∃ x, s.registry.scope? s.builder.scope = some x := by
    cases hs with
    | root hopen =>
      obtain ⟨hopened, -, hx⟩ := opened_of_openRoot hopen
      rwa [hopened.scope]
    | child hopen =>
      obtain ⟨x, hx, -⟩ := hopen.scope
      exact ⟨x, hx⟩
  obtain ⟨x, hx⟩ := hown
  refine ⟨x.kind, ⟨x, hx, rfl⟩, ⟨[], ?_⟩, ?_, ?_, ?_, ?_⟩
  · rw [hfresh.list, List.append_nil, Builder.prologue]
    cases s.builder.closureStart <;> rfl
  · rw [hfresh.ensureBodies, hfresh.rescuers]
    exact .main (hfresh.list ▸ regions_prologue)
  · exact hfresh.rescuers ▸ fun _ hl => absurd hl List.not_mem_nil
  · exact hfresh.loops ▸ fun _ hf => absurd hf List.not_mem_nil
  · exact hfresh.ensures ▸ fun _ hf => absurd hf List.not_mem_nil

/-- Regions are well bracketed in the list of a scope that is built as structured code, and the same
constructs are open in the end. Wherever the session was noted down, the regions that are open are
those of the rescuers, the bodies of open ensures are well bracketed and their copies covered, and
whatever is built there is laid out and leaves the same constructs open. -/
theorem regions_of_build {c : Code} {place : Nesting} {handed : List Label} {k : Trail}
    (hc : c.IsStructured) (hs : s.Starts)
    (hbuild : Runs (c.build place) s ⟨handed, []⟩ () t k) :
    Balanced t.builder.instrs.toList ∧ s.builder.SameStacks t.builder ∧
      t.builder.ensureBodies = s.builder.ensureBodies ∧
      ∃ kind, ∀ p ∈ k.points,
        Opens p.2.builder.instrs.toList p.2.builder.ensureBodies p.2.builder.rescuers ∧
        (∀ f ∈ p.2.builder.ensures, Balanced f.instrs ∧ f.CoversCopies) ∧
        ∀ {d : Code} {q h u l}, d.IsStructured → Runs (d.build q) p.2 h () u l →
          ∃ xs, p.2.Emits u xs ∧ p.2.LaysOut kind d xs := by
  obtain ⟨kind, hin⟩ := hs.inOrder
  have hlays := c.laysOut_build hc place (h := ⟨handed, []⟩) hin
  obtain ⟨xs, hxs, hlaid, -⟩ := hlays.result hbuild
  have hpoints : ∀ p ∈ k.points, p.2.InOrder kind := by
    intro p hp
    have h := hlays.points p
    rw [hbuild] at h
    exact (h hp).resolve_left fun h => nomatch h
  have ht := hin.after hxs hlaid
  have hbodies : t.builder.ensureBodies = [] := by
    rw [hxs.bodies, hs.fresh.ensureBodies, addToBody]
  refine ⟨?_, hxs.sameStacks, hbodies.trans hs.fresh.ensureBodies.symm, kind, fun p hp => ?_⟩
  · have hopens := ht.opens
    rw [hbodies, hxs.sameStacks.rescuers, hs.fresh.rescuers] at hopens
    cases hopens with
    | main hopens => exact hopens
  · have hp := hpoints p hp
    refine ⟨hp.opens, fun f hf => ⟨hp.balanced f hf, f.coversCopies⟩, ?_⟩
    intro d q h u l hd hbuild
    obtain ⟨ys, hys, hlaid, -⟩ := (d.laysOut_build hd q hp).result hbuild
    exact ⟨ys, hys, hp.laysOut hlaid⟩

/-- A loop that is left through a cleanup, which protects itself against what it calls. -/
def Code.breakThroughCleanup : Code :=
  .rescue
    (.loop .done (.boolean true)
      (.ensure (.seq .mark (.break .nil)) .nil
        (.rescue (.seq .mark (.call .self .normal (.var .self) ⟨"close"⟩ [] .nullBlock ∅)) .nil
          .done .nil) .nil)
      true true) .nil
    (.seq .mark .retry) .nil

theorem regions_of_build_breakThroughCleanup : ∃ t k,
    Code.breakThroughCleanup.IsStructured ∧ (single .method).Starts ∧
      Runs (Code.breakThroughCleanup.build ⟨.method, []⟩) (single .method) ⟨[], []⟩ () t k ∧
      k.points.length = 3 ∧ Balanced t.builder.instrs.toList ∧
      ∀ p ∈ k.points,
        Opens p.2.builder.instrs.toList p.2.builder.ensureBodies p.2.builder.rescuers := by
  have hc : Code.breakThroughCleanup.IsStructured := by
    simp only [Code.breakThroughCleanup, Code.IsStructured, and_self]
  have hbuild := TrailM.runs_of_ok (x := Code.breakThroughCleanup.build ⟨.method, []⟩)
    (s := single .method) (h := ⟨[], []⟩) (a := ()) (by decide +kernel)
  obtain ⟨hbalanced, -, -, kind, hpoints⟩ := regions_of_build hc (starts_single .method) hbuild
  exact ⟨_, _, hc, starts_single .method, hbuild, by decide +kernel, hbalanced,
    fun p hp => (hpoints p hp).1⟩

end Whole

end ScopeIR
