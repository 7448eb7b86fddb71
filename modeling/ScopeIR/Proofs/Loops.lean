import ScopeIR.Proofs.LoopValues
import ScopeIR.Proofs.Parts

/-! Every loop in the list of a method runs as its code means, with as many turns and the same tests, and
leaves its value in its result. -/

namespace ScopeIR

open Machine

/-- The code stands somewhere in the other. -/
inductive Code.IsPart (d : Code) : Code → Prop
  | whole : d.IsPart d
  | first {first rest : Code} : d.IsPart first → d.IsPart (.seq first rest)
  | rest {first rest : Code} : d.IsPart rest → d.IsPart (.seq first rest)
  | yes {value test : Operand} {yes no : Code} : d.IsPart yes → d.IsPart (.ifElse value test yes no)
  | no {value test : Operand} {yes no : Code} : d.IsPart no → d.IsPart (.ifElse value test yes no)
  | condition {condition body : Code} {value : Operand} {goOn testFirst : Bool} :
    d.IsPart condition → d.IsPart (.loop condition value body goOn testFirst)
  | turn {condition body : Code} {value : Operand} {goOn testFirst : Bool} :
    d.IsPart body → d.IsPart (.loop condition value body goOn testFirst)
  | protect {body cleanup : Code} {value unused : Operand} :
    d.IsPart body → d.IsPart (.ensure body value cleanup unused)
  | cleanup {body cleanup : Code} {value unused : Operand} :
    d.IsPart cleanup → d.IsPart (.ensure body value cleanup unused)
  | guard {body handler : Code} {value handled : Operand} :
    d.IsPart body → d.IsPart (.rescue body value handler handled)
  | handler {body handler : Code} {value handled : Operand} :
    d.IsPart handler → d.IsPart (.rescue body value handler handled)

theorem Code.IsPart.isOrderly {c d : Code} (hd : d.IsPart c) (hc : c.IsOrderly) : d.IsOrderly := by
  induction hd with
  | whole => exact hc
  | first _ ih | yes _ ih | condition _ ih | protect _ ih | guard _ ih => exact ih hc.1
  | rest _ ih | no _ ih | turn _ ih | handler _ ih => exact ih hc.2
  | cleanup _ ih => exact ih hc.2.1

/-- In the list of the site stands the list of the part, at a site of its own, behind what opens the
regions that are open there. -/
inductive Holds (d : Code) (σ : Site) (xs : List Instr) : Prop
  | mk (inner : Site) (front ys back : List Instr) (opened : List Label) : Laid inner d ys →
    inner.kind = σ.kind → (∀ f ∈ inner.ensures, Balanced f.instrs) →
    (∀ f ∈ inner.ensures, Unlined f.instrs) → xs = front ++ ys ++ back →
    regions [] front = some opened → opened.headD σ.rescuer = inner.rescuer → Holds d σ xs

namespace Holds

variable {d : Code} {σ σ' : Site} {front back xs ys : List Instr}

theorem inside (h : Holds d σ' ys) (hs : Surrounds σ.rescuer σ'.rescuer front back ys xs)
    (hkind : σ'.kind = σ.kind) : Holds d σ xs := by
  obtain ⟨inner, front', ys', back', opened', hlaid, hinside, hbalanced, hlines, heq, hinner,
    hheadD⟩ := h
  obtain ⟨hxs, opened, hopened, hrescuer⟩ := hs.trans ⟨heq, opened', hinner, hheadD⟩
  exact ⟨inner, front ++ front', ys', back' ++ back, opened, hlaid, hinside.trans hkind, hbalanced,
    hlines, hxs, hopened, hrescuer⟩

end Holds

/-- Each part of orderly code has its list in that of the whole. -/
theorem Laid.holds {d c : Code} {σ : Site} {xs : List Instr} (h : Laid σ c xs) (hd : d.IsPart c)
    (hc : c.IsOrderly) (hσ : ∀ f ∈ σ.ensures, Balanced f.instrs)
    (hlines : ∀ f ∈ σ.ensures, Unlined f.instrs) : Holds d σ xs := by
  -- the induction is on the way to the part, one construct at a time
  induction hd generalizing σ xs with
  | whole => exact ⟨σ, [], xs, [], [], h, rfl, hσ, hlines, (List.append_nil xs).symm, rfl, rfl⟩
  | first _ ih =>
    cases h with
    | seq hx hy => exact (ih hx hc.1 hσ hlines).inside .seq_first rfl
    | move hmove => cases hmove
  | rest _ ih =>
    cases h with
    | seq hx hy => exact (ih hy hc.2 hσ hlines).inside (.seq_rest (hx.balanced hσ)) rfl
    | move hmove => cases hmove
  | yes _ ih =>
    cases h with
    | ifElse hx hy => exact (ih hx hc.1 hσ hlines).inside .ifElse_yes rfl
    | move hmove => cases hmove
  | no _ ih =>
    cases h with
    | ifElse hx hy => exact (ih hy hc.2 hσ hlines).inside (.ifElse_no (hx.balanced hσ)) rfl
    | move hmove => cases hmove
  | condition _ ih =>
    cases h with
    | loopFirst _ _ hx hy => exact (ih hx hc.1 hσ hlines).inside .loopFirst_condition rfl
    | loopLast _ _ hx hy =>
      exact (ih hy hc.1 hσ hlines).inside (.loopLast_condition (hx.balanced hσ)) rfl
    | move hmove => cases hmove
  | turn _ ih =>
    cases h with
    | loopFirst _ hi hx hy =>
      exact (ih hy hc.2 hσ hlines).inside (.loopFirst_body hi (hx.balanced hσ)) rfl
    | loopLast _ _ hx hy => exact (ih hx hc.2 hσ hlines).inside .loopLast_body rfl
    | move hmove => cases hmove
  | protect _ ih =>
    cases h with
    | ensure _ _ hcleanup hbody _ =>
      have hframes := (List.forall_mem_cons (p := fun f : EnsureFrame => Balanced f.instrs)).mpr
        ⟨hcleanup.balanced hσ, hσ⟩
      have hcleanups := (List.forall_mem_cons (p := fun f : EnsureFrame => Unlined f.instrs)).mpr
        ⟨hcleanup.unlined_of_isOrderly hc.2.1 (.inr hc.2.2.mono) hlines, hlines⟩
      exact (ih hbody hc.1 hframes hcleanups).inside .ensure_body rfl
    | move hmove => cases hmove
  | cleanup _ ih =>
    cases h with
    | ensure _ _ hcleanup hbody hcopy =>
      have hinstrs := hcleanup.balanced hσ
      have hxs := hbody.balanced (List.forall_mem_cons.mpr ⟨hinstrs, hσ⟩)
      exact (ih hcleanup hc.2.1 hσ hlines).inside
        (.ensure_cleanup hxs (hcopy.balanced hinstrs)) rfl
    | move hmove => cases hmove
  | guard _ ih =>
    cases h with
    | rescue hx hy => exact (ih hx hc.1 hσ hlines).inside .rescue_body rfl
    | move hmove => cases hmove
  | handler _ ih =>
    cases h with
    | rescue hx hy =>
      exact (ih hy hc.2 hσ hlines).inside (.rescue_handler (hx.balanced hσ)) rfl
    | move hmove => cases hmove

/-- On the way from `m` to `m'` the variable gets what the loop is left with: nil behind its test, or
what the operand of a break is worth where the list of the break begins. -/
inductive Left (O : Oracle) (prog : List Instr) (result : Variable) (m m' : Machine) :
    Option Operand → Prop
  | done {xs ys : List Instr} : m.Treads O prog (xs ++ ys) m' → Delivers result .nil xs ys →
    Left O prog result m m' none
  | broken {value : Operand} {inner : Site} {p : Nat} {past : Deeds}
      {bs before meanwhile after : List Instr} : m.Treads O prog before (.at p past) →
    Laid inner (.break value) bs →
    StandsAt (withoutLines prog) (withoutLines (prog.take p)).length bs →
    (Machine.at p past).Treads O prog (meanwhile ++ after) m' →
    Delivers result value meanwhile after → Left O prog result m m' (some value)

/-- From the index on the list does what the loop means, up to where `stop` instructions are passed.
A raise goes where the regions around the loop send it. -/
structure RunsLoop (O : Oracle) (prog : List Instr) (loop : Code) (result : Variable) (stop p : Nat)
    (past : Deeds) : Prop where
  goesOn {fuel : Nat} {past' : Deeds} : loop.run O fuel past = (none, past') →
    ∃ n q, fuel ≤ n ∧ exec O prog n (.at p past) = .at q past'
  ends {fuel : Nat} {past' : Deeds} : loop.run O fuel past = (some .falls, past') →
    ∃ q, (withoutLines (prog.take q)).length = stop ∧
      Left O prog result (.at p past) (.at q past') (loop.leftBy O fuel past)
  raises {fuel : Nat} {past' : Deeds} : loop.run O fuel past = (some .raises, past') →
    ∃ n, (exec O prog n (.at p past)).compressed prog =
      raised (withoutLines prog) (rescuerAt prog p) past'

section Running

variable {O : Oracle} {prog : List Instr} {p test body stop : Nat} {σ : Site} {frame : LoopFrame}
  {goesOn : Deeds → Bool × Deeds} {testFirst : Bool} {m : Machine} {past past' : Deeds}
  {value? : Option Operand} {xs ys : List Instr} {value : Operand} {result : Variable}

theorem hosts_nil : Hosts prog [] p xs ↔ StandsAt prog p xs := by
  have hid : xs.map (·.renames []) = xs := List.map_id'' (fun _ => rfl) xs
  rw [Hosts, hid]

/-- Delivery on a way without lines is delivery on the way with them. -/
theorem Machine.Treads.delivers {q : Nat}
    (h : (Machine.at p past).Treads O (withoutLines prog) (xs ++ ys) (.at q past'))
    (hdelivers : Delivers result value xs ys) (hm : m.compressed prog = .at p past) :
    ∃ r zs zs', (withoutLines (prog.take r)).length = q ∧
      m.Treads O prog (zs ++ zs') (.at r past') ∧ Delivers result value zs zs' := by
  obtain ⟨ws, n, htreads, hn, hsame⟩ := h.withLines hm
  obtain ⟨r, rfl⟩ := exists_at_of_compressed hn
  obtain ⟨zs, zs', rfl, rfl, rfl⟩ := List.filter_eq_append_iff.mp hsame
  exact ⟨r, zs, zs', (Machine.at.inj (compressed_at.symm.trans hn)).1, htreads, hdelivers.withLines⟩

namespace LoopAt

variable (h : LoopAt O prog σ [] frame goesOn testFirst p test body stop xs ys)

include h

theorem treads_end (past : Deeds) : (Machine.at (stop + 1) past).Treads O prog [.label frame.loopEnd]
    (.at (stop + 2) past) := by
  have hend := (hosts_cons_iff.mp (hosts_cons_iff.mp h.result).2).1
  exact step_passes keepsNames_nil hend rfl ▸ Treads.single hend

theorem treads_nil (past : Deeds) : (Machine.at stop past).Treads O prog
    [.copy frame.result .nil, .label frame.loopEnd] (.at (stop + 2) past) := by
  have hcopy := (hosts_cons_iff.mp h.result).1
  exact .step hcopy (step_passes keepsNames_nil hcopy rfl ▸ h.treads_end past)

/-- From where a break stores its value. -/
theorem treads_break {q : Nat} (hp : Runnable prog)
    (hhosts : Hosts prog [] q [.copy frame.result value, .jump frame.loopEnd]) (past : Deeds) :
    (Machine.at q past).Treads O prog
      [.copy frame.result value, .jump frame.loopEnd, .label frame.loopEnd] (.at (stop + 2) past) := by
  obtain ⟨hcopy, hhosts⟩ := hosts_cons_iff.mp hhosts
  have hjump := (hosts_cons_iff.mp hhosts).1
  have hend := (hosts_cons_iff.mp (hosts_cons_iff.mp h.result).2).1
  have hgoes : step O prog (.at (q + 1) past) = .at (stop + 1) past :=
    (step_goes keepsNames_nil hjump rfl).trans (hp.goTo_renames hend)
  exact .step hcopy (step_passes keepsNames_nil hcopy rfl ▸ .step hjump (hgoes ▸ h.treads_end past))

end LoopAt

/-- Where the loop stands in the list without lines, its result holds its value at its end. -/
theorem Leaves.left (hp : Runnable (withoutLines prog))
    (h : LoopAt O (withoutLines prog) σ [] frame goesOn testFirst p test body stop xs ys)
    (hleaves : Leaves O (withoutLines prog) σ frame stop (.at p past) past' value?)
    (hm : m.compressed prog = .at p past) : ∃ q, (withoutLines (prog.take q)).length = stop + 2 ∧
      Left O prog frame.result m (.at q past') value? := by
  cases hleaves with
  | done hleads =>
    obtain ⟨ws, hws⟩ := hleads.exists_treads
    have hnil : Delivers frame.result .nil ws [.copy frame.result .nil, .label frame.loopEnd] :=
      delivers_copy (by simp [Instr.result?])
    obtain ⟨q, zs, zs', hq, htreads, hdelivers⟩ := (hws.trans (h.treads_nil past')).delivers hnil hm
    exact ⟨q, hq, .done htreads hdelivers⟩
  | @broken value hbreaks =>
    obtain ⟨hhead, hbreak, hlaid, hhosts, hway, hcopies, hend⟩ := hbreaks
    obtain rfl := Option.some.inj hhead
    obtain rfl := h.toRounds.copies_eq_nil hcopies
    obtain ⟨before, hbefore⟩ := hbreak.exists_treads
    obtain ⟨before, n, hbefore, hn, -⟩ := hbefore.withLines hm
    obtain ⟨b, rfl⟩ := exists_at_of_compressed hn
    obtain ⟨ws, hws⟩ := hway.exists_treads
    have hvalue : Delivers frame.result value ws
        [.copy frame.result value, .jump frame.loopEnd, .label frame.loopEnd] :=
      delivers_copy (by simp [Instr.result?])
    obtain ⟨q, zs, zs', hq, htreads, hdelivers⟩ :=
      (hws.trans (h.treads_break hp hend past')).delivers hvalue hn
    have hstands := (Machine.at.inj (compressed_at.symm.trans hn)).1 ▸ hosts_nil.mp hhosts
    exact ⟨q, hq, .broken hbefore hlaid hstands htreads hdelivers⟩

variable {condition code : Code} {goOn : Bool}

/-- The list of a loop ends with nil for its result, and wherever it stands it is a loop in the list. -/
theorem Laid.exists_loopAt (h : Laid σ (.loop condition value code goOn testFirst) ys)
    (hσ : ∀ f ∈ σ.ensures, Balanced f.instrs) : ∃ frame cs bs xs,
      ys = xs ++ [.copy frame.result .nil, .label frame.loopEnd] ∧ Laid (σ.inLoop frame) condition cs ∧
      Laid (σ.inLoop frame) code bs ∧ ∀ {O : Oracle} {prog : List Instr} {p : Nat}, Runnable prog →
        Hosts prog [] p ys → rescuerAt prog p = σ.rescuer → ∃ test body,
          LoopAt O prog σ [] frame (fun past => O.agrees past value.erased (.boolean goOn)) testFirst p
            test body (p + xs.length) cs bs := by
  cases h with
  | move hmove => cases hmove
  | @loopFirst _ _ _ _ _ frame setResult i cs bs hensures hi hcs hbs =>
    refine ⟨frame, cs, bs, .label frame.loopStart :: cs ++ i :: .label frame.iterStart ::
      .threadPoll :: bs ++ [.label frame.iterEnd, .jump frame.loopStart, .label setResult], ?_, hcs,
      hbs, fun {O prog p} hp hhosts hrescuer => ⟨p, p + 1 + cs.length + 1, ?_⟩⟩
    · simp only [List.append_assoc, List.cons_append, List.nil_append]
    · have hloop := loopAt_loopFirst (O := O) hp hensures keepsNames_nil hrescuer hi
        (hcs.balanced hσ) hhosts
      convert hloop using 1
      simp only [List.length_append, List.length_cons, List.length_nil]
      omega
  | @loopLast _ _ _ _ _ frame setResult i bs cs hensures hi hbs hcs =>
    refine ⟨frame, cs, bs, .label frame.loopStart :: .label frame.iterStart :: .threadPoll :: bs ++
      .label frame.iterEnd :: cs ++ [i, .label setResult], ?_, hcs, hbs,
      fun {O prog p} hp hhosts hrescuer => ⟨p + 1 + 2 + bs.length, p + 1, ?_⟩⟩
    · simp only [List.append_assoc, List.cons_append, List.nil_append]
    · have hloop := loopAt_loopLast (O := O) hp hensures keepsNames_nil hrescuer hi
        (hbs.balanced hσ) hhosts
      convert hloop using 1
      simp only [List.length_append, List.length_cons, List.length_nil]
      omega

/-- A loop whose list stands in a list without lines runs in the list with them. -/
theorem runsLoop_of_laid {q : Nat} {cs bs : List Instr} (hp : Runnable (withoutLines prog))
    (hc : (Code.loop condition value code goOn testFirst).IsOrderly)
    (hfit : σ.Fits (.loop condition value code goOn testFirst)) (hσ : ∀ f ∈ σ.ensures, Balanced f.instrs)
    (hlaid : Laid σ (.loop condition value code goOn testFirst) ys)
    (hcs : Laid (σ.inLoop frame) condition cs) (hbs : Laid (σ.inLoop frame) code bs)
    (hhosts : Hosts (withoutLines prog) [] q ys) (hrescuer : rescuerAt (withoutLines prog) q = σ.rescuer)
    (hat : LoopAt O (withoutLines prog) σ [] frame
      (fun past => O.agrees past value.erased (.boolean goOn)) testFirst q test body stop cs bs)
    (hq : (withoutLines (prog.take p)).length = q) :
    RunsLoop O prog (.loop condition value code goOn testFirst) frame.result (stop + 2) p past := by
  have hm : (Machine.at p past).compressed prog = .at q past := by rw [compressed_at, hq]
  have hcondition : (σ.inLoop frame).Fits condition := Or.imp_right And.left hfit
  have hbody : (σ.inLoop frame).Fits code := Or.imp_right And.right hfit
  have hfollows : ∀ fuel, Follows O (withoutLines prog) fuel (.at q past) _ _ := fun fuel =>
    hlaid.simulates hp hc hfit hσ [] q _ past keepsNames_nil hhosts rfl hrescuer
  constructor
  · intro fuel past' hrun
    have hgoes := hfollows fuel
    rw [hrun] at hgoes
    obtain ⟨n, r, hn, hexec⟩ := hgoes
    obtain ⟨k, hk, hcompressed⟩ := exists_compressed_exec O prog n (.at p past)
    rw [hm] at hcompressed
    obtain ⟨r', hr'⟩ := exists_at_of_compressed (hcompressed.trans hexec)
    exact ⟨k, r', hn.trans hk, hr'⟩
  · intro fuel past' hrun
    have hleaves := hat.leaves_turns (hcs.simulates hp hc.1 hcondition hσ)
      (hbs.simulates hp hc.2 hbody hσ) (hcs.breaks hp hc.1 hcondition hσ)
      (hbs.breaks hp hc.2 hbody hσ) hrun
    exact (hleaves.after (hat.enters past)).left hp hat hm
  · intro fuel past' hrun
    have hraises := hfollows fuel
    rw [hrun] at hraises
    obtain ⟨n, hn⟩ := hraises
    obtain ⟨k, -, hcompressed⟩ := exists_compressed_exec O prog n (.at p past)
    rw [hm] at hcompressed
    generalize hend : exec O (withoutLines prog) n _ = m at hn hcompressed
    refine ⟨k, hcompressed.trans ?_⟩
    cases hn with
    | raises =>
      rw [← rescuerAt_withoutLines, hq, hrescuer]
      rfl
    | exits hexit => cases hexit

end Running

section Methods

open Session TrailM

variable {c : Code} {place : Nesting} {s t : Session} {x : Scope} {k : Trail}

/-- Where the part of a scope's code has its list. -/
theorem stands_of_build {d : Code} (hc : c.IsOrderly) (hs : s.Starts)
    (hbuild : Runs (c.build place) s ⟨[], []⟩ () t k) (hpart : d.IsPart c)
    (hx : s.registry.scope? s.builder.scope = some x)
    (hinside : ∀ {σ : Site}, σ.kind = x.kind → σ.Fits d) :
    Runnable (withoutLines t.builder.instrs.toList) ∧ ∃ σ front xs back, Laid σ d xs ∧ σ.Fits d ∧
      (∀ f ∈ σ.ensures, Balanced f.instrs) ∧
      withoutLines t.builder.instrs.toList = front ++ xs ++ back ∧
      rescuerAt (withoutLines t.builder.instrs.toList) front.length = σ.rescuer := by
  obtain ⟨kind, hin⟩ := hs.inOrder
  obtain ⟨y, hy, rfl⟩ := hin.own
  obtain rfl := Option.some.inj (hx.symm.trans hy)
  have hfresh := hs.fresh
  obtain ⟨ys, hemits, hlaid, hplaces⟩ := (c.laysOut_build hc.isStructured place hin).result hbuild
  obtain ⟨zs, hemits', hplacing⟩ := Code.placing_of_build hfresh rfl hbuild
  have hplaced : WellPlaced ([] ++ t.builder.instrs.toList) :=
    wellPlaced_of_placing hfresh hemits' hplacing fun _ hi => nomatch hi
  have hnone : ∀ f ∈ s.builder.ensures, False := hfresh.ensures ▸ fun _ hf => nomatch hf
  have hbalanced := hlaid.balanced fun f hf => (hnone f hf).elim
  refine ⟨runnable_of_balanced hfresh hemits hbalanced hplaces hplaced, ?_⟩
  obtain ⟨σ, front, xs, back, opened, hd, hkind, hframes, hcleanups, rfl, hopened, hrescuer⟩ :=
    hlaid.holds hpart hc (fun f hf => (hnone f hf).elim) fun f hf => (hnone f hf).elim
  have hunlined := hd.unlined_of_isOrderly (hpart.isOrderly hc) (hinside hkind) hcleanups
  have hlist := list_of_fresh hfresh hemits
  rw [withoutLines_append, withoutLines_append, hunlined.withoutLines_eq, ← List.append_assoc,
    ← List.append_assoc] at hlist
  refine ⟨σ, t.builder.prologue ++ withoutLines front, xs, withoutLines back, hd, hinside hkind, hframes,
    hlist, ?_⟩
  -- neither the start label in front nor lines open a region
  have houter : s.builder.rescuer = .unrescued := by rw [Builder.rescuer, hfresh.rescuers]; rfl
  rw [← hrescuer, rescuerAt, hlist, List.append_assoc, List.take_left, regions_append, regions_prologue,
    Option.bind_some, regions_withoutLines, hopened, ← houter]
  rfl

/-- Every loop that code holds is run by the list as the code means, in every kind of scope: wherever the
list of the loop is entered, tests and bodies take turns in the same way, and when it is left the result
of the loop holds nil, or the value of the break that left it. -/
theorem loops_of_build {condition body : Code} {value : Operand} {goOn testFirst : Bool}
    (hc : c.IsOrderly) (hs : s.Starts) (hbuild : Runs (c.build place) s ⟨[], []⟩ () t k)
    (hpart : (Code.loop condition value body goOn testFirst).IsPart c)
    (hx : s.registry.scope? s.builder.scope = some x)
    (hinside : x.kind = .method ∨ (Code.loop condition value body goOn testFirst).IsInside false) :
    ∃ σ front xs back result l,
      withoutLines t.builder.instrs.toList = front ++ (xs ++ [.copy result .nil, .label l]) ++ back ∧
      Laid σ (.loop condition value body goOn testFirst) (xs ++ [.copy result .nil, .label l]) ∧
      ∀ (O : Oracle) {p : Nat} {past : Deeds},
        (withoutLines (t.builder.instrs.toList.take p)).length = front.length →
        RunsLoop O t.builder.instrs.toList (.loop condition value body goOn testFirst) result
          (front.length + xs.length + 2) p past := by
  obtain ⟨hrunnable, σ, front, ys, back, hloop, hfit, hframes, hlist, hrescuer⟩ :=
    stands_of_build hc hs hbuild hpart hx fun hkind => hinside.imp hkind.trans id
  obtain ⟨frame, cs, bs, xs, rfl, hcs, hbs, hat⟩ := hloop.exists_loopAt hframes
  refine ⟨σ, front, xs, back, frame.result, frame.loopEnd, hlist, hloop, fun O p past hp => ?_⟩
  have hstands : StandsAt (withoutLines t.builder.instrs.toList) front.length
      (xs ++ [.copy frame.result .nil, .label frame.loopEnd]) := by
    rw [StandsAt, hlist, List.append_assoc, List.drop_left]
    exact List.prefix_append _ _
  have hhosts := hosts_nil.mpr hstands
  obtain ⟨test, body, hat⟩ := hat hrunnable hhosts hrescuer
  exact runsLoop_of_laid hrunnable (hpart.isOrderly hc) hfit hframes hloop hcs hbs hhosts hrescuer hat hp

/-- A loop that what is found in it leaves, over a cleanup. -/
def Code.leaveWithFound : Code :=
  .loop .done (.var .self)
    (.ensure
      (.ifElse (.var .self) .nil (.break (.var (.ofName "found"))) (.next .nil)) .nil
      (.call .self .normal (.var .self) ⟨"close"⟩ [] .nullBlock ∅) .nil)
    true true

/-- All tests hold and no call raises. -/
def Oracle.agreeable : Oracle := ⟨fun _ _ _ => true, fun _ _ => false⟩

theorem loops_of_build_leaveWithFound : ∃ t k,
    Runs (Code.leaveWithFound.build ⟨.method, []⟩) (single .method) ⟨[], []⟩ () t k ∧
    ∃ result p q, Left .agreeable t.builder.instrs.toList result (.at p [])
      (.at q [.called ⟨.normal, none, ⟨"close"⟩, .var .self, [], .nullBlock, ∅, false⟩ false,
        .tested (.var .self) .nil true, .tested (.var .self) (.boolean true) true])
      (some (.var (.ofName "found"))) := by
  have hc : Code.leaveWithFound.IsOrderly := by
    simp only [Code.leaveWithFound, Code.IsOrderly, Code.IsInside, and_self]
  have hbuild := TrailM.runs_of_ok (x := Code.leaveWithFound.build ⟨.method, []⟩)
    (s := single .method) (h := ⟨[], []⟩) (a := ()) (by decide +kernel)
  obtain ⟨σ, front, xs, back, result, l, hlist, -, hruns⟩ :=
    loops_of_build hc (starts_single .method) hbuild .whole rfl (.inl rfl)
  rw [List.append_assoc] at hlist
  obtain ⟨before, after, hsplit, rfl, -⟩ := List.filter_eq_append_iff.mp hlist
  have hfront : withoutLines (List.take before.length _) = withoutLines before :=
    congrArg withoutLines (hsplit ▸ List.take_left)
  have hrun : Code.leaveWithFound.run .agreeable 2 [] = (some .falls, _) := rfl
  obtain ⟨q, -, hleft⟩ := (hruns .agreeable (congrArg List.length hfront)).ends hrun
  exact ⟨_, _, hbuild, result, before.length, q, hleft⟩

end Methods

end ScopeIR
