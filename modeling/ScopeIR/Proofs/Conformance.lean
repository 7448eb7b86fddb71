import ScopeIR.Proofs.Labels
import ScopeIR.Proofs.Lines
import ScopeIR.Proofs.Rounds

/-! The list of a method does what its code means. -/

namespace ScopeIR

open Machine

theorem Code.IsOrderly.isStructured {c : Code} (hc : c.IsOrderly) : c.IsStructured := by
  induction c with
  | seq _ _ ihFirst ihRest => exact ⟨ihFirst hc.1, ihRest hc.2⟩
  | ifElse _ _ _ _ ihYes ihNo => exact ⟨ihYes hc.1, ihNo hc.2⟩
  | loop _ _ _ _ _ ihCondition ihBody => exact ⟨ihCondition hc.1, ihBody hc.2⟩
  | ensure _ _ _ _ ihBody ihCleanup => exact ⟨ihBody hc.1, ihCleanup hc.2.1⟩
  | rescue _ _ _ _ ihBody ihHandler => exact ⟨ihBody hc.1, ihHandler hc.2⟩
  | _ => first | exact trivial | exact hc.elim

theorem Code.IsControl.isStructured {c : Code} (hc : c.IsControl) : c.IsStructured :=
  hc.isOrderly.isStructured

section Whole

variable {O : Oracle} {prog : List Instr} {fuel : Nat} {σ : Site} {c : Code} {xs : List Instr}

/-- Where nothing was emitted, nothing is to be done. -/
theorem Laid.idle (h : Laid σ c xs) (hxs : xs = []) (hc : c.IsOrderly) (hfit : σ.Fits c)
    (past : Deeds) : c.run O fuel past = (some .falls, past) := by
  induction h generalizing past with
  | done | mark | temp | note => rfl
  | seq _ _ ihFirst ihRest =>
    obtain ⟨hfirst, hrest⟩ := List.append_eq_nil_iff.mp hxs
    rw [Code.run, ihFirst hfirst hc.1 (Or.imp_right And.left hfit) past]
    exact ihRest hrest hc.2 (Or.imp_right And.right hfit) past
  | redoLoop | redoBlock | retry => exact hc.elim
  | move hmove => exact absurd hc (Code.not_isOrderly_of_isMove hmove)
  | returnTransfer hmethod => exact hfit.elim (absurd · hmethod) False.elim
  | breakLoop | nextLoop | nextBlock =>
    exact absurd (List.append_eq_nil_iff.mp hxs).2 (List.cons_ne_nil _ _)
  | _ => exact absurd hxs (List.cons_ne_nil _ _)

/-- One case for each construct. -/
theorem Laid.simulates (hp : Runnable prog) (h : Laid σ c xs) (hc : c.IsOrderly)
    (hfit : σ.Fits c) (hσ : ∀ f ∈ σ.ensures, Balanced f.instrs) :
    Simulates O prog fuel σ c xs := by
  induction h with
  | done | mark | temp | note =>
    rintro ρs p q past - - rfl -
    exact .here .falls
  | seq hx hy ihFirst ihRest =>
    exact simulates_seq hp (ihFirst hc.1 (Or.imp_right And.left hfit) hσ) (hx.balanced hσ)
      (ihRest hc.2 (Or.imp_right And.right hfit) hσ)
  | call => exact simulates_call
  | emit =>
    rintro ρs p q past hρs hhosts rfl -
    exact Follows.after_step (step_passes hρs (hosts_cons_iff.mp hhosts).1 hc.1) (.here .falls)
  | redoLoop | redoBlock | retry => exact hc.elim
  | move hmove => exact absurd hc (Code.not_isOrderly_of_isMove hmove)
  | ifElse hx hy ihYes ihNo =>
    exact simulates_ifElse hp (ihYes hc.1 (Or.imp_right And.left hfit) hσ) (hx.balanced hσ)
      (ihNo hc.2 (Or.imp_right And.right hfit) hσ)
  | loopFirst hensures hi hx hy ihCondition ihBody =>
    exact simulates_loopFirst hp hensures hi (ihCondition hc.1 (Or.imp_right And.left hfit) hσ)
      (hx.balanced hσ) (ihBody hc.2 (Or.imp_right And.right hfit) hσ)
  | loopLast hensures hi hx hy ihBody ihCondition =>
    exact simulates_loopLast hp hensures hi (ihBody hc.2 (Or.imp_right And.right hfit) hσ)
      (hx.balanced hσ) (ihCondition hc.1 (Or.imp_right And.left hfit) hσ)
  | ensure hrescuer hloop hcleanup hbody hcopy ihCleanup ihBody =>
    have hinstrs := hcleanup.balanced hσ
    have hensures := (List.forall_mem_cons (p := fun f : EnsureFrame => Balanced f.instrs)).mpr
      ⟨hinstrs, hσ⟩
    have hcleans : Cleans O prog fuel _ _ _ := {
      rescuer := hrescuer
      balanced := hinstrs
      inside := hc.2.2
      simulates := ihCleanup hc.2.1 (Or.imp_right And.right hfit) hσ
      idle := fun hnone => hcleanup.idle hnone hc.2.1 (Or.imp_right And.right hfit) }
    exact simulates_ensure hp hcleans hloop (ihBody hc.1 (Or.imp_right And.left hfit) hensures)
      (hbody.balanced hensures) hcopy
  | rescue hx hy ihBody ihHandler =>
    exact simulates_rescue hp (ihBody hc.1 (Or.imp_right And.left hfit) hσ) (hx.balanced hσ)
      (ihHandler hc.2 (Or.imp_right And.right hfit) hσ)
  | breakLoop hhead hcopies =>
    exact fun _ _ _ _ _ hhosts _ _ => .here (.exits (.breaks hhead) hcopies hhosts)
  | nextLoop hhead hcopies =>
    exact fun _ _ _ _ _ hhosts _ _ => .here (.exits (.nexts hhead) hcopies hhosts)
  | breakBlock hloops hclosure | nextBlock hloops hclosure =>
    exact absurd hfit (Site.not_fits_block hloops hclosure)
  | returnTransfer hmethod => exact hfit.elim (absurd · hmethod) False.elim
  | @returnPlain σ value hnone =>
    have hcopies : AreCopies σ.ensures [] := hnone ▸ AreCopies.nil
    exact fun _ _ _ _ _ hhosts _ _ => .here (.exits .returns hcopies hhosts)
  | returnCopies hcopies =>
    intro ρs p q past hρs hhosts _ _
    obtain ⟨hcopy, hhosts⟩ := hosts_cons_iff.mp hhosts
    exact Follows.after_step (step_passes hρs hcopy rfl) (.here (.exits .returns hcopies hhosts))

end Whole

section Methods

open Session TrailM

variable {O : Oracle} {prog : List Instr} {fuel : Nat} {σ : Site} {o : Completion} {past : Deeds}
  {m : Machine} {c : Code} {s t : Session} {kind : ScopeKind} {k : Trail} {xs : List Instr}

/-- At the site of a whole method nothing is left to run, and nothing takes a raise. -/
theorem Ends.ended (h : Ends prog σ [] prog.length o past m) (hloops : σ.loops = [])
    (hensures : σ.ensures = []) (hrescuer : σ.rescuer = .unrescued) :
    ∃ e, o.ending? = some e ∧ step O prog m = .ended e past := by
  cases h with
  | falls =>
    refine ⟨.fell, rfl, ?_⟩
    rw [step, List.getElem?_eq_none le_rfl]
    rfl
  | raises =>
    refine ⟨.uncaught, rfl, ?_⟩
    rw [hrescuer]
    rfl
  | exits hexit hcopies hhosts =>
    cases hexit with
    | breaks hhead | nexts hhead =>
      rw [hloops] at hhead
      cases hhead
    | returns =>
      rw [hensures] at hcopies
      cases hcopies
      have hret := (hosts_cons_iff.mp hhosts).1
      exact ⟨.returned, rfl, step_leaves (fun _ hρ => absurd hρ List.not_mem_nil) hret rfl⟩

/-- The list does what the code means: they end alike, or both go on, and do the same. -/
structure Realizes (O : Oracle) (c : Code) (prog : List Instr) : Prop where
  ends {fuel : Nat} {o : Completion} {past : Deeds} : c.run O fuel [] = (some o, past) →
    ∃ e n, o.ending? = some e ∧ exec O prog n (.at 0 []) = .ended e past
  goesOn {fuel : Nat} {past : Deeds} : c.run O fuel [] = (none, past) →
    ∃ n p, fuel ≤ n ∧ exec O prog n (.at 0 []) = .at p past

theorem Realizes.withLines (h : Realizes O c (withoutLines prog)) : Realizes O c prog where
  ends hrun := by
    obtain ⟨e, n, he, hexec⟩ := h.ends hrun
    obtain ⟨k, -, hk⟩ := exists_compressed_exec O prog n (.at 0 [])
    exact ⟨e, k, he, eq_ended_of_compressed (hk.trans hexec)⟩
  goesOn hrun := by
    obtain ⟨n, q, hn, hexec⟩ := h.goesOn hrun
    obtain ⟨k, hk, hcompressed⟩ := exists_compressed_exec O prog n (.at 0 [])
    obtain ⟨p, hp⟩ := exists_at_of_compressed (hcompressed.trans hexec)
    exact ⟨k, p, hn.trans hk, hp⟩

/-- Nothing else ends it. -/
theorem Realizes.ended_iff (h : Realizes O c prog) {e : Ending} {past : Deeds} :
    (∃ fuel o, c.run O fuel [] = (some o, past) ∧ o.ending? = some e) ↔
      ∃ n, exec O prog n (.at 0 []) = .ended e past := by
  constructor
  · rintro ⟨fuel, o, hrun, ho⟩
    obtain ⟨e', n, he, hexec⟩ := h.ends hrun
    obtain rfl := Option.some.inj (he.symm.trans ho)
    exact ⟨n, hexec⟩
  · rintro ⟨n, hexec⟩
    -- with more fuel than steps the code has ended too, and there is one end only
    rcases hrun : c.run O (n + 1) [] with ⟨_ | o, past'⟩
    · obtain ⟨k, p, hk, hexec'⟩ := h.goesOn hrun
      cases hexec'.symm.trans (exec_of_ended hexec (Nat.le_of_succ_le hk))
    · obtain ⟨e', k, he, hexec'⟩ := h.ends hrun
      have hmax := exec_of_ended hexec (Nat.le_max_left n k)
      cases hmax.symm.trans (exec_of_ended hexec' (Nat.le_max_right n k))
      exact ⟨n + 1, o, hrun, he⟩

theorem startLabel_ne_unrescued (id : ScopeId) : id.startLabel ≠ .unrescued := by
  intro h
  have hlast := getLast?_startLabel id
  rw [h] at hlast
  revert hlast
  decide

/-- What code adds can run behind the start label. -/
theorem runnable_of_balanced {n : Nat} (hs : s.builder.Fresh) (ht : s.Emits t xs) (hxs : Balanced xs)
    (hplaces : PlacesFrom n xs) (hplaced : WellPlaced t.builder.instrs.toList) :
    Runnable (withoutLines t.builder.instrs.toList) := by
  have hlist := list_of_fresh hs ht
  refine ⟨?_, fun l => ?_, fun hl => ?_⟩
  · rw [hlist, Balanced, regions_append, regions_prologue, Option.bind_some, regions_withoutLines, hxs]
  · rw [← count_placed, placed_withoutLines, count_placed]
    exact hplaced.atMostOnce l
  · rw [hlist, List.mem_append] at hl
    rcases hl with hl | hl
    · obtain ⟨l, hstart, hlabel⟩ := Option.map_eq_some_iff.mp (Option.mem_toList.mp hl)
      rw [start_of_fresh hs ht hstart] at hlabel
      exact startLabel_ne_unrescued _ (Instr.label.inj hlabel)
    · exact (hplaces _ (mem_placed.mpr (List.mem_of_mem_filter hl))).ne_unrescued rfl

theorem runnable_of_emits {n : Nat} (hs : s.builder.Fresh) (ht : s.Emits t xs) (hxs : Balanced xs)
    (hunlined : Unlined xs) (hplaces : PlacesFrom n xs)
    (hplaced : WellPlaced t.builder.instrs.toList) :
    withoutLines t.builder.instrs.toList = t.builder.prologue ++ xs ∧
      Runnable (withoutLines t.builder.instrs.toList) := by
  refine ⟨?_, runnable_of_balanced hs ht hxs hplaces hplaced⟩
  rw [list_of_fresh hs ht, hunlined.withoutLines_eq]

/-- Where nothing is around the code, its list may start with a label. -/
theorem realizes_of_laid {start : Option Label} (hp : Runnable prog)
    (hprog : prog = (start.map Instr.label).toList ++ xs) (hlaid : Laid σ c xs) (hc : c.IsControl)
    (hkind : σ.kind = .method) (hloops : σ.loops = []) (hensures : σ.ensures = [])
    (hrescuer : σ.rescuer = .unrescued) : Realizes O c prog := by
  have hρs : ∀ ρ ∈ ([] : List Renaming), ρ.KeepsNames := fun _ hρ => absurd hρ List.not_mem_nil
  have hwhole : Hosts prog [] 0 ((start.map Instr.label).toList ++ xs) := by
    have hid : prog.map (·.renames []) = prog := List.map_id'' (fun _ => rfl) prog
    rw [Hosts, ← hprog, hid]
    exact List.prefix_rfl
  obtain ⟨hfront, hhosts⟩ := hosts_append_iff.mp hwhole
  have hcovered : rescuerAt prog (0 + (start.map Instr.label).toList.length) = .unrescued :=
    hp.rescuerAt_hosts hfront (by cases start <;> rfl)
  have hleads : (Machine.at 0 []).Leads O prog
      (.at (0 + (start.map Instr.label).toList.length) []) := by
    cases start with
    | none => exact .refl _
    | some l => exact .step (step_passes hρs (hosts_cons_iff.mp hfront).1 rfl) (.refl _)
  have hlength : prog.length = 0 + (start.map Instr.label).toList.length + xs.length := by
    rw [hprog, List.length_append, Nat.zero_add]
  have hframes : ∀ f ∈ σ.ensures, Balanced f.instrs := hensures ▸ fun _ hf => absurd hf List.not_mem_nil
  -- with any fuel, since the list has to go on for as long as the code does
  have hfollows : ∀ fuel, Follows O prog fuel (.at 0 []) (c.run O fuel [])
      (Ends prog σ [] prog.length) := fun fuel =>
    .leads hleads (hlaid.simulates hp hc.isOrderly (.inl hkind) hframes [] _ _ [] hρs hhosts hlength
      (hcovered.trans hrescuer.symm))
  constructor
  · intro fuel o past hrun
    have hends := hfollows fuel
    rw [hrun] at hends
    obtain ⟨k, hk⟩ := hends
    obtain ⟨e, he, hstep⟩ := hk.ended hloops hensures hrescuer
    exact ⟨e, k + 1, he, by rw [exec_add]; exact hstep⟩
  · intro fuel past hrun
    have hgoes := hfollows fuel
    rw [hrun] at hgoes
    obtain ⟨k, p, hk, hp⟩ := hgoes
    exact ⟨k, p, hk, hp⟩

/-- The list of a method does what the code means that it was built from. Its ends are those of the
code, and as long as the code goes on, so does the list. -/
theorem realizes_of_build {c : Code} {place : Nesting} {s t : Session} {x : Scope} {k : Trail}
    (hc : c.IsControl) (hs : s.Starts) (hx : s.registry.scope? s.builder.scope = some x)
    (hkind : x.kind = .method) (hbuild : Runs (c.build place) s ⟨[], []⟩ () t k) (O : Oracle) :
    Realizes O c t.builder.instrs.toList ∧ ∀ {e : Ending} {past : Deeds},
      (∃ fuel o, c.run O fuel [] = (some o, past) ∧ o.ending? = some e) ↔
        ∃ n, exec O t.builder.instrs.toList n (.at 0 []) = .ended e past := by
  obtain ⟨kind, hin⟩ := hs.inOrder
  obtain ⟨y, hy, rfl⟩ := hin.own
  obtain rfl := Option.some.inj (hx.symm.trans hy)
  have hfresh := hs.fresh
  obtain ⟨xs, hemits, hlaid, hplaces⟩ := (c.laysOut_build hc.isStructured place hin).result hbuild
  obtain ⟨ys, hemits', hplacing⟩ := Code.placing_of_build hfresh rfl hbuild
  -- the label lemma speaks of the list with whatever a finished scope loads in front
  have hplaced : WellPlaced ([] ++ t.builder.instrs.toList) :=
    wellPlaced_of_placing hfresh hemits' hplacing fun _ hi => nomatch hi
  have hnone : ∀ f ∈ s.builder.ensures, False := hfresh.ensures ▸ fun _ hf => nomatch hf
  have hbalanced := hlaid.balanced fun f hf => (hnone f hf).elim
  have hunlined := hlaid.unlined hc hkind fun f hf => (hnone f hf).elim
  obtain ⟨hlist, hrunnable⟩ := runnable_of_emits hfresh hemits hbalanced hunlined hplaces hplaced
  have hrescuer : s.builder.rescuer = .unrescued := by rw [Builder.rescuer, hfresh.rescuers]; rfl
  have hrealizes : Realizes O c t.builder.instrs.toList :=
    .withLines (realizes_of_laid hrunnable hlist hlaid hc hkind hfresh.loops hfresh.ensures hrescuer)
  exact ⟨hrealizes, hrealizes.ended_iff⟩

/-- A loop that is left or goes on through a cleanup, and a handler around it. -/
def Code.leaveThroughCleanup : Code :=
  .rescue
    (.loop .done (.var .self)
      (.ensure
        (.ifElse (.var .self) .nil (.break .nil)
          (.ifElse (.var .self) (.boolean true) (.next .nil) (.return .nil))) .nil
        (.seq .mark (.call .self .normal (.var .self) ⟨"close"⟩ [] .nullBlock ∅)) .nil)
      true true) .nil
    (.call .self .normal (.var .self) ⟨"report"⟩ [] .nullBlock ∅) .nil

/-- All tests hold, and nothing raises but what is called `close`. -/
def Oracle.closing : Oracle := ⟨fun _ _ _ => true, fun _ call => call.name = ⟨"close"⟩⟩

/-- What the copy of the cleanup raises on the way out of the loop is handled around the loop. -/
theorem realizes_of_build_leaveThroughCleanup : ∃ t k,
    Code.leaveThroughCleanup.IsControl ∧ (single .method).Starts ∧
      Runs (Code.leaveThroughCleanup.build ⟨.method, []⟩) (single .method) ⟨[], []⟩ () t k ∧
      ∃ n, exec .closing t.builder.instrs.toList n (.at 0 []) = .ended .fell
        [.called ⟨.normal, none, ⟨"report"⟩, .var .self, [], .nullBlock, ∅, false⟩ false,
          .called ⟨.normal, none, ⟨"close"⟩, .var .self, [], .nullBlock, ∅, false⟩ true,
          .tested (.var .self) .nil true, .tested (.var .self) (.boolean true) true] := by
  have hc : Code.leaveThroughCleanup.IsControl := by
    simp only [Code.leaveThroughCleanup, Code.IsControl, Code.IsInside, and_self]
  have hbuild := TrailM.runs_of_ok (x := Code.leaveThroughCleanup.build ⟨.method, []⟩)
    (s := single .method) (h := ⟨[], []⟩) (a := ()) (by decide +kernel)
  obtain ⟨-, hends⟩ := realizes_of_build hc (starts_single .method) rfl rfl hbuild .closing
  exact ⟨_, _, hc, starts_single .method, hbuild,
    hends.mp ⟨2, .falls, by decide +kernel, rfl⟩⟩

end Methods

end ScopeIR
