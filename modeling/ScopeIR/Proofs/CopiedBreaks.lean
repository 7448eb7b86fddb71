import ScopeIR.Proofs.LoopExits

/-! Which variables the copies of an ensure body write. A temporary keeps its name just when the body
does not write it, so that a break in a copy writes a temporary of its own and not the loop's. -/

namespace ScopeIR

open Session

namespace TrailM

variable {α β : Type} {s : Session} {h : Trail}

/-- The list that the action adds is tame, and so are the ensure bodies at the marks. -/
abbrev Watches (s : Session) (h : Trail) (x : TrailM α) : Prop :=
  x.Builds s h Astray fun _ t k xs => Guarding s h t k xs

/-- Watches wherever what is around it is watched. -/
abbrev Watchful (x : TrailM Unit) : Prop := ∀ {s : Session} {h : Trail}, Watched s h → Watches s h x

theorem watches_lift {x : SessionM α} (hx : ∀ {a t}, s.Runs x a t →
    ∃ xs, s.Emits t xs ∧ Tame s.builder.loops t.labels xs) :
    Watches s h (liftM x : TrailM α) := by
  refine Builds.lift fun hr => ?_
  obtain ⟨xs, hxs, htame⟩ := hx hr
  exact ⟨xs, hxs, .of_tame hxs htame⟩

theorem watches_withHanded {target : Nat} {act : Label → SessionM Unit}
    (hact : ∀ {l t}, l ∈ h.handed → s.Runs (act l) () t →
      ∃ xs, s.Emits t xs ∧ Tame s.builder.loops t.labels xs) :
    Watches s h (withHanded target act) := by
  refine builds_withHanded (fun hl hr => ?_) fun _ => .of_tame (.refl s) .nil
  obtain ⟨xs, hxs, htame⟩ := hact (List.mem_of_getElem? hl) hr
  exact ⟨xs, hxs, .of_tame hxs htame⟩

theorem watches_bind {x : TrailM α} {f : α → TrailM β} (hs : Watched s h) (hx : Watches s h x)
    (hf : ∀ {a t k}, Watched t k → Watches t k (f a)) : Watches s h (x >>= f) := by
  refine Builds.bind (Builds.mono hx fun hxs hx => Builds.mono (hf (hs.after hxs hx)) ?_)
  intro _ u l ys hys hy
  exact hx.append le_rfl hxs.sameStacks.loops hy

theorem watchful_done : Watchful (pure ()) :=
  fun _ => Builds.pure (.of_tame (.refl _) .nil)

theorem watchful_seq {x y : TrailM Unit} (hx : Watchful x) (hy : Watchful y) :
    Watchful (do x; y) := fun hs => watches_bind hs (hx hs) hy

theorem watches_ifElse {value test : Operand} {yes no : TrailM Unit} (hs : Watched s h)
    (hyes : Watchful yes) (hno : Watchful no) :
    Watches s h (BuildT.ifElse value test yes no) := by
  refine builds_ifElse fun {e n s₁ s₂ s₃} helse hend hbranch => ?_
  have hs₃ := (helse.toEmits.trans hend.toEmits).trans hbranch
  have hk := hs.still hs₃
  refine Builds.mono (hyes hk) fun {_ s₄ k xs} hxs hx => fun {s₅} hmiddle => ?_
  have hk' := (hk.after hxs hx).still hmiddle
  refine Builds.mono (hno hk') fun {_ s₆ k' ys} hys hy => fun {t} hlabel => ?_
  have hxy := hx.append hmiddle.labels_le (hxs.trans hmiddle).sameStacks.loops hy
  have hn : n.stem ≠ "_LOOP_END" := by
    rw [hend.stem_eq]
    decide
  have hx' : Tame s.builder.loops t.labels xs :=
    hx.tame_of (fun f hf => hs₃.sameStacks.loops ▸ hf)
      (hmiddle.labels_le.trans (hy.labels_le.trans hlabel.labels_le))
  have hy' : Tame s.builder.loops t.labels ys :=
    hy.tame_of (fun f hf => ((hs₃.trans hxs).trans hmiddle).sameStacks.loops ▸ hf) hlabel.labels_le
  refine hxy.around hs₃.labels_le hlabel.labels_le (fun _ => .inl) ?_
  have hmiddle' := hs.tame_jump hn (hy'.pass (i := .label e) rfl)
  exact (hx'.branchUnlessEqual.append hmiddle').append (.of_not_mem fun _ hl => by simp at hl)

/-- A label that may be handed to the body and stands after it. -/
theorem watches_labelled {stem : String} {body : Label → TrailM Unit} (hs : Watched s h)
    (hbody : ∀ {l s₁}, s.MakesLabel s₁ stem l → Watched s₁ (h.handing l) →
      (body l).Builds s₁ h Astray fun _ t k xs => Guarding s₁ (h.handing l) t k xs) :
    Watches s h (BuildT.labelled stem body) := by
  refine builds_labelled fun {l s₁} hlabel => ?_
  have hhanded : ∀ m ∈ (h.handing l).handed, m ∈ h.handed ∨
      s.labels ≤ m.index.toNat ∧ m.index.toNat < s₁.labels := by
    intro m hm
    rcases Trail.mem_handing.mp hm with hm | rfl
    · exact .inl hm
    · exact .inr ⟨hlabel.ge, hlabel.lt⟩
  have hk := hs.later hlabel.toEmits hhanded
  refine Builds.mono (hbody hlabel hk) fun {_ s₂ k xs} _ hx => fun {t} hafter => ?_
  have hx' : Tame s.builder.loops t.labels xs :=
    hx.tame_of (fun f hf => hlabel.sameStacks.loops ▸ hf) hafter.labels_le
  refine hx.around hlabel.labels_le hafter.labels_le hhanded ?_
  exact hx'.append (.of_not_mem fun _ hl => by simp at hl)

theorem watchful_labelled {stem : String} {body : TrailM Unit} (hbody : Watchful body) :
    Watchful (BuildT.labelled stem fun l => do hand l; body) :=
  fun hs => watches_labelled hs fun _ hk => Yields.hand_bind (hbody hk)

theorem watchful_ifNot {value test : Operand} {body : TrailM Unit} (hbody : Watchful body) :
    Watchful (BuildT.ifNot value test body) := by
  intro s h hs
  refine watches_labelled hs fun {l s₁} hlabel _ => ?_
  have hk := hs.still hlabel.toEmits
  refine Builds.mono (watches_bind hk (watches_lift fun hcond => ?_) fun hk => hbody hk)
    fun _ hx => hx.retrail (fun m hm => List.mem_append_left _ hm) fun _ => .inl
  obtain ⟨i, hi, hemit⟩ := emits_of_cond hcond
  refine ⟨[i], hemit, .branchIf hi (hk.tame_jump ?_ .nil)⟩
  rw [hlabel.stem_eq]
  decide

theorem builds_repeated_watched {l : Label} {body : Nat → TrailM Unit}
    (hbody : ∀ i, Watchful (body i)) (start count : Nat) {s : Session} {h : Trail}
    (hs : Watched s (h.handing l)) :
    Builds (BuildT.repeated (fun i => do hand l; body i) start count) s h Astray
      fun _ t k xs => Guarding s (h.handing l) t k xs := by
  induction count generalizing start s h with
  | zero =>
    exact Builds.pure ((Guarding.of_tame (.refl s) .nil).retrail
      (fun m hm => List.mem_append_left _ hm) fun _ => .inl)
  | succ count ih =>
    refine Builds.bind (Yields.hand_bind (Builds.mono (hbody start hs) fun {_ t k xs} hxs hx => ?_))
    have hlast : ∀ m ∈ (k.handing l).handed, m ∈ k.handed ∨ m ∈ (h.handing l).handed := fun m hm =>
      (Trail.mem_handing.mp hm).imp_right fun hm => Trail.mem_handing.mpr (.inr hm)
    have hx' := hx.retrail (fun _ => id) hlast
    exact Builds.mono (ih (start + 1) (hs.after hxs hx')) fun _ hy =>
      hx'.append le_rfl hxs.sameStacks.loops hy

theorem watchful_times {count : Nat} {body : Nat → TrailM Unit} (hbody : ∀ i, Watchful (body i)) :
    Watchful (BuildT.times count fun l i => do hand l; body i) :=
  fun hs => watches_labelled hs fun _ hk => builds_repeated_watched hbody 0 count hk

theorem watchful_forLoop {test increment body : TrailM Unit} (htest : Watchful test)
    (hincrement : Watchful increment) (hbody : Watchful body) :
    Watchful (BuildT.forLoop (fun after => do hand after; test) (fun _ => increment)
      fun _ bottom => do hand bottom; body) := by
  intro s h hs
  refine builds_forLoop fun {top bottom after s₁ s₂ s₃ s₄} htop hbottom hafter hlabel => ?_
  have hs₄ := ((htop.toEmits.trans hbottom.toEmits).trans hafter.toEmits).trans hlabel
  have hge₂ := htop.labels_le.trans hbottom.labels_le
  have hle₃ := hafter.labels_le.trans hlabel.labels_le
  have hk := hs.later (k := h.handing after) hs₄ ?_
  swap
  · intro l hl
    rcases List.mem_append.mp hl with hl | hl
    · exact .inl hl
    · obtain rfl := List.mem_singleton.mp hl
      exact .inr ⟨hge₂.trans hafter.ge, hafter.lt.trans_le hlabel.labels_le⟩
  refine Yields.hand_bind (Builds.mono (htest hk) fun {_ s₅ k xs} hxs hx => ?_)
  -- the body is handed a label that was made before the test was built
  have hhanded : ∀ l ∈ ((h.handing after).handing bottom).handed, l ∈ h.handed ∨
      s.labels ≤ l.index.toNat ∧ l.index.toNat < s₄.labels := by
    intro l hl
    simp only [Trail.handing, List.mem_append, List.mem_cons, List.not_mem_nil, or_false] at hl
    rcases hl with (hl | rfl) | rfl
    · exact .inl hl
    · exact .inr ⟨hge₂.trans hafter.ge, hafter.lt.trans_le hlabel.labels_le⟩
    · exact .inr ⟨htop.labels_le.trans hbottom.ge, hbottom.lt.trans_le hle₃⟩
  have hx' : Guarding s₄ ((h.handing after).handing bottom) s₅ (k.handing bottom) xs := by
    refine hx.retrail (fun _ hl => List.mem_append_left _ hl) fun l hl => ?_
    rcases List.mem_append.mp hl with hl | hl
    · exact .inl hl
    · exact .inr (List.mem_append_right _ hl)
  have hk' : Watched s₅ (k.handing bottom) := (hs.later hs₄ hhanded).after hxs hx'
  refine Yields.hand_bind (Builds.mono (hbody hk') fun {_ s₆ k₁ ys} hys hy => fun {s₇} hmiddle => ?_)
  refine Builds.mono (hincrement ((hk'.after hys hy).still hmiddle)) fun {_ s₈ k₂ zs} hzs hz => ?_
  intro t hend
  have hyz := hy.append hmiddle.labels_le (hys.trans hmiddle).sameStacks.loops hz
  have hall := hx'.append le_rfl hxs.sameStacks.loops hyz
  refine hall.around hs₄.labels_le hend.labels_le hhanded ?_
  have hz₈ := hmiddle.labels_le.trans (hz.labels_le.trans hend.labels_le)
  have hx₀ : Tame s.builder.loops t.labels xs :=
    hx.tame_of (fun f hf => hs₄.sameStacks.loops ▸ hf) (hy.labels_le.trans hz₈)
  have hy₀ : Tame s.builder.loops t.labels ys :=
    hy.tame_of (fun f hf => (hs₄.trans hxs).sameStacks.loops ▸ hf) hz₈
  have hz₀ : Tame s.builder.loops t.labels zs :=
    hz.tame_of (fun f hf => (((hs₄.trans hxs).trans hys).trans hmiddle).sameStacks.loops ▸ hf)
      hend.labels_le
  have htop' : top.stem ≠ "_LOOP_END" := by
    rw [htop.stem_eq]
    decide
  have hback : Tame s.builder.loops t.labels [.jump top, .label after] :=
    hs.tame_jump htop' (.of_not_mem fun _ hl => by simp at hl)
  have hfront := (hx₀.pass (i := .label top) rfl).append hy₀
  exact (hfront.append (hz₀.pass (i := .label bottom) rfl)).append hback

theorem watches_loop {condition body : TrailM Unit} {value : Operand} {goOn testFirst : Bool}
    (hs : Watched s h) (hcondition : Watchful condition) (hbody : Watchful body) :
    Watches s h
      (BuildT.loop (do condition; return value) body goOn testFirst : TrailM Operand) := by
  have hlbl : ∀ {l : Label}, l.stem = "LBL" → l.stem ≠ "_LOOP_END" := by
    intro l hl
    rw [hl]
    decide
  cases testFirst with
  | true =>
    refine builds_loop_testFirst fun {frame setResult s₁} hopen => ?_
    have hk := hs.opensLoop hopen
    refine builds_value (Builds.mono (hcondition hk) fun {_ s₂ k xs} hxs hx => ?_)
    intro i s₃ hi hmiddle
    have hk' := (hk.after hxs hx).still hmiddle
    refine Builds.mono (hbody hk') fun {_ s₄ k' ys} hys hy => ?_
    intro t hclose
    have hxy := hx.append hmiddle.labels_le (hxs.trans hmiddle).sameStacks.loops hy
    refine hxy.around hopen.labels_le hclose.labels_le (fun _ => .inl) ?_
    have hmem₁ : ∀ f ∈ s.builder.loops, f ∈ s₁.builder.loops := by
      intro f hf
      rw [hopen.loops]
      exact List.mem_cons_of_mem _ hf
    have hx₀ : Tame s.builder.loops t.labels xs :=
      hx.tame_of hmem₁ (hmiddle.labels_le.trans (hy.labels_le.trans hclose.labels_le))
    have hy₀ : Tame s.builder.loops t.labels ys :=
      hy.tame_of (fun f hf => (hxs.trans hmiddle).sameStacks.loops ▸ hmem₁ f hf) hclose.labels_le
    have hi₀ : Tame s.builder.loops t.labels [i] :=
      .branchIf hi (hs.tame_jump (hlbl hopen.stems.2.2.2.2) .nil)
    have hstart : frame.loopStart.stem ≠ "_LOOP_END" := by
      rw [hopen.stems.1]
      decide
    have hback : Tame s.builder.loops t.labels [.jump frame.loopStart, .label setResult,
        .copy frame.result .nil, .label frame.loopEnd] :=
      hs.tame_jump hstart (.of_not_mem fun _ hl => by simp at hl)
    have hiter₀ := (hy₀.pass (i := .threadPoll) rfl).pass (i := .label frame.iterStart) rfl
    have hend₀ := hback.pass (i := .label frame.iterEnd) rfl
    exact ((hx₀.pass (by rfl)).append (hi₀.append hiter₀)).append hend₀
  | false =>
    refine builds_loop_testLast fun {frame setResult s₁ s₂} hopen hstart => ?_
    have hk := (hs.opensLoop hopen).still hstart
    refine Builds.mono (hbody hk) fun {_ s₃ k xs} hxs hx => fun {s₄} hmiddle => ?_
    have hk' := (hk.after hxs hx).still hmiddle
    refine builds_value (Builds.mono (hcondition hk') fun {_ s₅ k' ys} hys hy => ?_)
    intro i t hi hclose
    have hxy := hx.append hmiddle.labels_le (hxs.trans hmiddle).sameStacks.loops hy
    refine hxy.around (hopen.labels_le.trans hstart.labels_le) hclose.labels_le (fun _ => .inl) ?_
    have hmem₂ : ∀ f ∈ s.builder.loops, f ∈ s₂.builder.loops := by
      intro f hf
      rw [hstart.sameStacks.loops, hopen.loops]
      exact List.mem_cons_of_mem _ hf
    have hx₀ : Tame s.builder.loops t.labels xs :=
      hx.tame_of hmem₂ (hmiddle.labels_le.trans (hy.labels_le.trans hclose.labels_le))
    have hy₀ : Tame s.builder.loops t.labels ys :=
      hy.tame_of (fun f hf => (hxs.trans hmiddle).sameStacks.loops ▸ hmem₂ f hf) hclose.labels_le
    have hiter : frame.iterStart.stem ≠ "_LOOP_END" := by
      rw [hopen.stems.2.2.1]
      decide
    have hi₀ : Tame s.builder.loops t.labels [i] := .branchIf hi (hs.tame_jump hiter .nil)
    have hend₀ : Tame s.builder.loops t.labels
        [.label setResult, .copy frame.result .nil, .label frame.loopEnd] :=
      .of_not_mem fun _ hl => by simp at hl
    have hiter₁ := (hx₀.pass (i := .threadPoll) rfl).pass (i := .label frame.iterStart) rfl
    have hx₁ := hiter₁.pass (i := .label frame.loopStart) rfl
    have hy₁ := hy₀.pass (i := .label frame.iterEnd) rfl
    exact (hx₁.append hy₁).append (hi₀.append hend₀)

theorem watches_ensure {body cleanup : TrailM Unit} {value unused : Operand}
    (hs : Watched s h) (hbody : Watchful body) (hcleanup : Watchful cleanup) :
    Watches s h
      (BuildT.ensure (do body; return value) (do cleanup; return unused) : TrailM Operand) := by
  refine builds_ensure fun {frame s₁} hframe => ?_
  have hk : Watched (s₁.entering frame) h := (hs.still hframe.toEmits).entering
  refine builds_value (Builds.mono (hcleanup hk) fun {_ s₂ k ys} hys hy => ?_)
  intro result s₃ hopen
  have hloops₂ : s₂.builder.loops = s.builder.loops :=
    hys.sameStacks.loops.trans hframe.sameStacks.loops
  have hk₂ : Watched s₂.leaving k := (hk.after hys hy).leaving
  have hy₂ : Tame s₂.builder.loops s₂.labels ys :=
    hy.tame_of (fun f hf => hys.sameStacks.loops ▸ hf) le_rfl
  have hk₃ := hk₂.opensRegion hopen hy₂
  refine builds_value (Builds.mono (hbody hk₃) fun {_ s₄ k' xs} hxs hx => ?_)
  intro exception s₅ s₆ t cs hclose hcopies htail
  have hopened : s₂.labels ≤ s₃.labels := hopen.labels_le
  have hloops₃ : s₃.builder.loops = s.builder.loops := hopen.loops.trans hloops₂
  have hxy := hy.append hopened (hopen.loops.trans hys.sameStacks.loops) hx
  have h₅₆ := hcopies.emits.labels_le
  have h₆ := htail.labels_le
  have h₄ := hclose.labels_le.trans (h₅₆.trans h₆)
  refine hxy.around hframe.labels_le h₄ (fun _ => .inl) ?_
  have hx₀ : Tame s.builder.loops t.labels xs := hx.tame_of (fun f hf => hloops₃ ▸ hf) h₄
  have hy₀ : Tame s.builder.loops t.labels ys :=
    hy.tame_of (fun f hf => hframe.sameStacks.loops ▸ hf) (hopened.trans (hx.labels_le.trans h₄))
  have hlater := hopened.trans (hx.labels_le.trans hclose.labels_le)
  have hc₀ : Tame s.builder.loops t.labels cs := by
    rw [← hloops₂]
    refine (Tame.copies (hy₂.mono (fun _ => id) hlater) (fun f hf => ?_) hcopies).mono
      (fun _ => id) h₆
    exact (hk₂.ends f hf).2.trans_le hlater
  have hbodyEnd : frame.bodyEnd.stem ≠ "_LOOP_END" := by
    rw [hframe.stems _ (by simp only [List.mem_cons, true_or, or_true])]
    decide
  have hend₀ : Tame s.builder.loops t.labels [.raise exception, .label frame.bodyEnd] :=
    .of_not_mem fun _ hl => by simp at hl
  have hcaught₀ := (hy₀.pass (i := .label frame.bodyStart) rfl).pass
    (i := .receiveException exception) rfl
  have hbody₀ := hcaught₀.pass (i := .label frame.dummyRescue) rfl
  have hcopy₀ := (hc₀.pass (i := .copy result value) rfl).pass (i := .regionEnd) rfl
  have hx₁ := (hx₀.pass (i := .regionStart frame.dummyRescue) rfl).pass
    (i := .label frame.regionStart) rfl
  exact ((hx₁.append hcopy₀).append (hs.tame_jump hbodyEnd hbody₀)).append hend₀

theorem watches_rescue {body handler : TrailM Unit} {value handled : Operand}
    (hs : Watched s h) (hbody : Watchful body) (hhandler : Watchful handler) :
    Watches s h (BuildT.rescue (do body; return value)
      fun _ => do handler; return handled : TrailM Operand) := by
  refine builds_rescue fun {frame rescuer after} result {s₁} hopen => ?_
  have hk := hs.opensRescue hopen
  refine builds_value (Builds.mono (hbody hk) fun {_ s₂ k xs} hxs hx => ?_)
  intro exception s₃ henter
  have hentry : frame.entry.stem = "LBL" :=
    hopen.stems _ (by simp only [List.mem_cons, true_or])
  have hk := (hk.after hxs hx).entersHandler henter hentry
  refine builds_value (Builds.mono (hhandler hk) fun {_ s₄ k' ys} hys hy => ?_)
  intro t hleave
  have hloops₃ : s₃.builder.loops = s₁.builder.loops := henter.loops.trans hxs.sameStacks.loops
  have hxy := hx.append henter.labels_le hloops₃ hy
  refine hxy.around hopen.labels_le hleave.labels_le (fun _ => .inl) ?_
  have hx₀ : Tame s.builder.loops t.labels xs :=
    hx.tame_of (fun f hf => hopen.loops ▸ hf)
      (henter.labels_le.trans (hy.labels_le.trans hleave.labels_le))
  have hy₀ : Tame s.builder.loops t.labels ys :=
    hy.tame_of (fun f hf => (hloops₃.trans hopen.loops) ▸ hf) hleave.labels_le
  have hafter : after.stem ≠ "_LOOP_END" := by
    rw [hopen.stems _ (by simp only [List.mem_cons, true_or, or_true])]
    decide
  have hend₀ : Tame s.builder.loops t.labels [.copy result handled, .label after] :=
    .of_not_mem fun _ hl => by simp at hl
  have hhandler₀ := hs.tame_jump hafter
    ((hy₀.pass (i := .receiveException exception) rfl).pass (i := .label rescuer) rfl)
  have hmiddle₀ := (hhandler₀.pass (i := .copy result value) rfl).pass (i := .regionEnd) rfl
  have hentry₀ := (hx₀.pass (i := .regionStart rescuer) rfl).pass (i := .label frame.entry) rfl
  have hx₁ := hentry₀.pass (i := .getGlobal frame.savedException BuildT.currentException) rfl
  exact (hx₁.append hmiddle₀).append hend₀

theorem watches_zsuper {block : Operand} (hs : Watched s h) :
    Watches s h (BuildT.zsuper block : TrailM Variable) := by
  refine builds_zsuper ?_ ?_ ?_
  · intro result t xs _ hraising hemits _
    exact .of_tame hemits (.of_plain hraising.isPlain)
  · intro args result t call _ hemits
    exact .of_tame hemits (Tame.nil.pass rfl)
  · intro args result test e n s₁ s₂ s₃ t rest short long _ htest he hn hemits
    have hall := ((htest.trans he.toEmits).trans hn.toEmits).trans hemits
    have hstem : n.stem ≠ "_LOOP_END" := by
      rw [hn.stem_eq]
      decide
    have hend : Tame s.builder.loops t.labels [.label e, .zsuper long, .label n] :=
      .of_not_mem fun _ hl => by simp at hl
    have hshort := (hs.tame_jump hstem hend).pass (i := .zsuper short) rfl
    exact .of_tame hall ((hshort.pass (by rfl)).pass rfl)

/-- What is built in another scope does not count here. -/
theorem watches_apart {x : TrailM α} (hx : x.Builds s { h with handed := [] } Astray
    fun _ _ _ xs => xs = []) : Watches s h (apart x) := by
  refine builds_apart (Builds.mono hx ?_)
  rintro _ t k _ ht rfl
  exact ⟨ht.labels_le, .nil, fun _ => .inl⟩

end TrailM

namespace Code

open TrailM

theorem watchful_build (c : Code) : ∀ place, Watchful (c.build place) := by
  induction c with
  | done => exact fun _ => watchful_done
  | seq first rest ihFirst ihRest =>
    exact fun place => watchful_seq (ihFirst place) (ihRest place)
  | mark =>
    intro place s h hs
    exact Yields.mark (hs.astray place) ⟨[], .refl s, le_rfl, .nil, fun _ => .inl⟩
  | temp =>
    refine fun _ _ _ hs => watches_bind hs (watches_lift fun htemp => ?_) watchful_done
    exact ⟨[], (takesTemp_of_temp htemp).toEmits, .nil⟩
  | note line =>
    refine fun _ _ _ _ => watches_lift fun hnote => ?_
    exact ⟨[], emits_of_noteLine hnote, .nil⟩
  | emit i =>
    refine fun _ _ _ _ => watches_lift fun hemit => ?_
    exact ⟨[i.1], emits_of_emit hemit, .of_plain fun j hj => List.mem_singleton.mp hj ▸ i.2⟩
  | call result type receiver name args given flags =>
    refine fun _ _ _ hs => watches_bind hs (watches_lift fun hcall => ?_) watchful_done
    obtain ⟨-, refined, hemit⟩ := runs_call hcall
    exact ⟨_, hemit, Tame.nil.pass rfl⟩
  | jump target =>
    refine fun _ _ _ hs => watches_withHanded fun hl hjump => ?_
    exact ⟨_, emits_of_emit hjump, hs.tame_handed hl (emits_of_emit hjump).labels_le⟩
  | branch op target value test =>
    refine fun _ _ _ hs => watches_withHanded fun hl hbranch => ?_
    exact ⟨_, emits_of_emit hbranch, Tame.nil.pass rfl⟩
  | cond target value test =>
    refine fun _ _ _ hs => watches_withHanded fun hl hcond => ?_
    obtain ⟨i, hi, hemit⟩ := emits_of_cond hcond
    exact ⟨[i], hemit, .branchIf hi (hs.tame_handed hl hemit.labels_le)⟩
  | condNe target value test =>
    refine fun _ _ _ hs => watches_withHanded fun hl hbranch => ?_
    exact ⟨_, emits_of_emit hbranch, Tame.nil.branchUnlessEqual⟩
  | ifElse value test yes no ihYes ihNo =>
    exact fun place _ _ hs => watches_ifElse hs (ihYes place) (ihNo place)
  | ifNot value test body ih => exact fun place => watchful_ifNot (ih place)
  | forLoop test increment body ihTest ihIncrement ihBody =>
    exact fun place => watchful_forLoop (ihTest place) (ihIncrement place) (ihBody place)
  | times count body ih => exact fun place => watchful_times fun i => ih i place
  | labelled stem body ih => exact fun place => watchful_labelled (ih place)
  | loop condition value body goOn testFirst ihCondition ihBody =>
    exact fun place _ _ hs => watches_bind hs
      (watches_loop hs (ihCondition place) (ihBody place)) watchful_done
  | ensure body value cleanup unused ihBody ihCleanup =>
    exact fun place _ _ hs => watches_bind hs
      (watches_ensure hs (ihBody place) (ihCleanup place)) watchful_done
  | rescue body value handler handled ihBody ihHandler =>
    exact fun place _ _ hs => watches_bind hs
      (watches_rescue hs (ihBody place) (ihHandler place)) watchful_done
  | «break» value =>
    refine fun _ _ _ hs => watches_lift fun hbreak => ?_
    obtain ⟨xs, hxs⟩ := breaks_of_breakWith hbreak
    exact ⟨xs, hxs.emits, hs.tame_breaks hxs⟩
  | next value =>
    refine fun _ _ _ hs => builds_next fun hnexts => ?_
    exact .of_tame hnexts.emits (hs.tame_nexts hnexts)
  | redo =>
    refine fun _ _ _ hs => watches_lift fun hredo => ?_
    obtain ⟨xs, hxs⟩ := redoes_of_redo hredo
    exact ⟨xs, hxs.emits, hs.tame_redoes hxs⟩
  | retry =>
    refine fun _ _ _ hs => watches_lift fun hretry => ?_
    obtain ⟨frame, hframe, hemits⟩ := emits_of_retry hretry
    have hentry : frame.entry.stem ≠ "_LOOP_END" := by
      rw [hs.entries frame (List.mem_of_head? hframe)]
      decide
    exact ⟨_, hemits, ((hs.tame_jump hentry .nil).pass (by rfl)).pass rfl⟩
  | «return» value =>
    refine fun _ _ _ hs => watches_lift fun hreturn => ?_
    obtain ⟨xs, hxs⟩ := returns_of_returnWith hreturn
    exact ⟨xs, hxs.emits, hs.tame_returns hxs⟩
  | zsuper block => exact fun _ _ _ hs => watches_bind hs (watches_zsuper hs) watchful_done
  | block method body ih =>
    refine fun place _ _ _ => watches_apart (builds_block fun hopen => ?_)
    exact Builds.mono (ih _ (.of_fresh hopen.fresh rfl)) fun _ _ _ _ _ _ => rfl
  | nested kind name body ih =>
    refine fun place _ _ _ => watches_apart (builds_child fun hopen => ?_)
    exact Builds.mono (ih _ (.of_fresh hopen.fresh rfl)) fun _ _ _ _ _ _ => rfl

/-- Whatever code is built, no copy of an ensure body writes the result of a loop that it leaves. -/
theorem astray_of_points {c : Code} {place : Nesting} {s : Session} {p : Nesting × Session}
    (hs : s.builder.Fresh) (hp : p ∈ (c.build place s ⟨[], []⟩).2.points) : Astray p :=
  ((c.watchful_build place (.of_fresh hs rfl)).points p hp).resolve_left fun h => nomatch h

end Code

section Exact

variable {c : Code} {place : Nesting} {s u t : Session} {p : Nesting × Session}
  {frame : EnsureFrame} {ys : List Instr}

/-- A copy of an ensure body renames just those older temporaries that the body writes. A break out
of a loop around the ensure is among what it writes, so that in a copy it writes a temporary of the
copy and never the result of the loop. -/
theorem copies_of_points (hs : s.Starts) (hp : p ∈ (c.build place s ⟨[], []⟩).2.points)
    (hframe : frame ∈ p.2.builder.ensures) (hu : p.2.Adds u ys)
    (hcopy : u.Runs (copyEnsure frame) () t) :
    (frame.instrs = [] ∧ u.Emits t []) ∨
    ∃ ρ : Renaming, u.Emits t (frame.copy ρ) ∧
      (∀ v : Variable, v.isTemp → v.index < u.temps →
        (ρ.var v = v ↔ ∀ i ∈ frame.instrs, i.result? ≠ some v)) ∧
      ∀ loop ∈ p.2.builder.loops, ∀ before after,
        frame.copy ρ = before ++ .jump loop.loopEnd :: after →
        ∃ front w value, before = front ++ [.copy w value] ∧ w.isTemp ∧ w ≠ loop.result := by
  have hastray := Code.astray_of_points hs.fresh hp
  obtain ⟨xs, hxs⟩ := copies_of_copyEnsure hcopy
  cases hxs with
  | empty hnil hemits => exact .inl ⟨hnil, hemits⟩
  | @full ρ w hρ hemits =>
    refine .inr ⟨ρ, hρ.toEmits.trans hemits, fun v hv hlt => hρ.var_eq_self_iff hv hlt, ?_⟩
    intro loop hloop before after he
    obtain ⟨hguards, hend, hresult⟩ := hastray frame hframe loop hloop
    have hcopied := EnsureFrame.guards_copy hρ (hend.trans_le hu.labels_le) hguards
    obtain ⟨front, w, value, hbefore, hw, hge⟩ := hcopied before after he
    refine ⟨front, w, value, hbefore, hw, ?_⟩
    rintro rfl
    have := hresult.trans_le hu.temps_le
    omega

/-- The cleanup breaks out of the loop, and is copied after its region. -/
def Code.breakInCleanup : Code :=
  .loop .done (.boolean true) (.ensure .mark .nil (.break (.atom (.fixnum 5))) .nil) true true

theorem copies_of_points_breakInCleanup :
    ∃ p ∈ (Code.breakInCleanup.build ⟨.method, []⟩ (single .method) ⟨[], []⟩).2.points,
      ∃ frame ∈ p.2.builder.ensures, ∃ loop ∈ p.2.builder.loops, ∃ t,
        frame.instrs = [.copy loop.result (.atom (.fixnum 5)), .jump loop.loopEnd] ∧
        p.2.Runs (copyEnsure frame) () t ∧
        ((frame.instrs = [] ∧ p.2.Emits t []) ∨
        ∃ ρ : Renaming, p.2.Emits t (frame.copy ρ) ∧
          (∀ v : Variable, v.isTemp → v.index < p.2.temps →
            (ρ.var v = v ↔ ∀ i ∈ frame.instrs, i.result? ≠ some v)) ∧
          ∀ loop ∈ p.2.builder.loops, ∀ before after,
            frame.copy ρ = before ++ .jump loop.loopEnd :: after →
            ∃ front w value, before = front ++ [.copy w value] ∧ w.isTemp ∧ w ≠ loop.result) := by
  have hall : ∃ p ∈ (Code.breakInCleanup.build ⟨.method, []⟩ (single .method) ⟨[], []⟩).2.points,
      ∃ frame ∈ p.2.builder.ensures, ∃ loop ∈ p.2.builder.loops,
        frame.instrs = [.copy loop.result (.atom (.fixnum 5)), .jump loop.loopEnd] ∧
          (copyEnsure frame p.2).1 = .ok () := by
    decide +kernel
  obtain ⟨p, hp, frame, hframe, loop, hloop, hinstrs, hok⟩ := hall
  have hcopy := Session.runs_of_ok hok
  refine ⟨p, hp, frame, hframe, loop, hloop, _, hinstrs, hcopy, ?_⟩
  exact copies_of_points (starts_single .method) hp hframe (Emits.refl p.2).toAdds hcopy

end Exact

end ScopeIR
