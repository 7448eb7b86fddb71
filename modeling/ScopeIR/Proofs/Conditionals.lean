import ScopeIR.Proofs.Enclosure
import ScopeIR.Proofs.Labels
import ScopeIR.Proofs.Lines
import ScopeIR.Proofs.Stretches

/-! Conditionals do what one of their arms does, by whether the value matches the test, wherever they
stand in code. -/

namespace ScopeIR

open Machine Session ScopeIR.Runtime

/-- The label of the innermost region that is open there, or the one that stands for none. -/
def Covers (prog : List Instr) (n : Nat) (r : Label) : Prop :=
  ∃ opened, regions [] (prog.take n) = some opened ∧ opened.headD .unrescued = r

section Covering

variable {opened opened' : List Label} {prog xs as : List Instr} {x y : Stretch} {n : Nat} {r l : Label}
  {i : Instr}

theorem mem_starts_of_regions (h : regions opened xs = some opened') (hl : l ∈ opened') :
    l ∈ opened ∨ l ∈ starts xs := by
  induction xs generalizing opened with
  | nil =>
    obtain rfl := Option.some.inj h
    exact .inl hl
  | cons i xs ih =>
    rw [regions_cons] at h
    obtain ⟨inner, hi, h⟩ := Option.bind_eq_some_iff.mp h
    have hinner : ∀ m ∈ inner, m ∈ opened ∨ i.start? = some m := by
      intro m hm
      cases i with
      | regionStart l =>
        obtain rfl := Option.some.inj hi
        exact (List.mem_cons.mp hm).symm.imp_right fun he => congrArg some he.symm
      | regionEnd =>
        cases opened with
        | nil => cases hi
        | cons l opened =>
          obtain rfl := Option.some.inj hi
          exact .inl (List.mem_cons_of_mem _ hm)
      | _ =>
        obtain rfl := Option.some.inj hi
        exact .inl hm
    rw [mem_starts_cons]
    rcases ih h with hl | hl
    · exact (hinner l hl).imp_right .inl
    · exact .inr (.inr hl)

@[simp] theorem starts_withoutLines : starts (withoutLines xs) = starts xs := by
  have h : ∀ i : Instr, (if !i.isLine then i.start? else none) = i.start? := by
    intro i
    cases i <;> rfl
  simp only [starts, withoutLines, List.filterMap_filter, h]

theorem Balanced.of_withoutLines {ys : List Instr} (h : Balanced xs)
    (hsame : withoutLines ys = withoutLines xs) : Balanced ys := by
  rw [Balanced, ← regions_withoutLines, hsame, regions_withoutLines]
  exact h

theorem regions_of_append {ys : List Instr} (h : regions [] (xs ++ ys) = some opened) :
    ∃ inner, regions [] xs = some inner := by
  rw [regions_append] at h
  obtain ⟨inner, hinner, -⟩ := Option.bind_eq_some_iff.mp h
  exact ⟨inner, hinner⟩

namespace Stretch

/-- The instructions of a stretch, lines aside. -/
theorem Holds.mem (h : x.Holds prog xs) (hlo : x.lo ≤ n) (hhi : n < x.hi) (hi : prog[n]? = some i)
    (hline : i.isLine = false) : i ∈ xs := by
  obtain ⟨ys, hys, hlast, hsame⟩ := h
  have hget : ys[n - x.lo]? = some i := by
    rw [List.prefix_iff_eq_take.mp hys, List.getElem?_take_of_lt (by omega), List.getElem?_drop,
      Nat.add_sub_of_le hlo, hi]
  have hmem : i ∈ withoutLines ys := List.mem_filter.mpr ⟨List.mem_of_getElem? hget, by rw [hline]; rfl⟩
  rw [hsame] at hmem
  exact List.mem_of_mem_filter hmem

theorem Holds.exists_index (h : x.Holds prog xs) (hi : i ∈ xs) (hline : i.isLine = false) :
    ∃ n, x.lo ≤ n ∧ n < x.hi ∧ prog[n]? = some i := by
  obtain ⟨ys, hys, hlast, hsame⟩ := h
  have hmem : i ∈ withoutLines xs := List.mem_filter.mpr ⟨hi, by rw [hline]; rfl⟩
  rw [← hsame] at hmem
  obtain ⟨n, hn⟩ := List.mem_iff_getElem?.mp (List.mem_of_mem_filter hmem)
  have hlt := (List.getElem?_eq_some_iff.mp hn).1
  obtain ⟨zs, hzs⟩ := hys
  refine ⟨x.lo + n, Nat.le_add_right _ _, by omega, ?_⟩
  rw [← List.getElem?_drop, ← hzs, List.getElem?_append_left hlt, hn]

/-- The stretch may be cut behind the last instruction that is no line. -/
theorem Holds.upTo (h : x.Holds prog (xs ++ [i])) (hline : i.isLine = false) :
    ∃ n, n < x.hi ∧ Holds ⟨x.lo, n⟩ prog xs ∧ Holds ⟨x.lo, n + 1⟩ prog (xs ++ [i]) ∧
      prog[n]? = some i := by
  obtain ⟨zs, hzs, hhi, hsame⟩ := h
  obtain ⟨front, back, rfl, hfront⟩ :
      ∃ front back, zs = front ++ i :: back ∧ withoutLines front = withoutLines xs := by
    have hlast : withoutLines [i] = [i] := List.filter_cons_of_pos (by rw [hline]; rfl)
    rw [withoutLines_append, hlast] at hsame
    obtain ⟨zs₁, zs₂, rfl, hxs, hback⟩ := List.filter_eq_append_iff.mp hsame
    obtain ⟨ys, ys', rfl, hys, -, -⟩ := List.filter_eq_cons_iff.mp hback
    refine ⟨zs₁ ++ ys, ys', (List.append_assoc _ _ _).symm, ?_⟩
    rw [withoutLines_append, ← hxs, withoutLines, withoutLines, List.filter_eq_nil_iff.mpr hys,
      List.append_nil]
  rw [List.length_append, List.length_cons] at hhi
  obtain ⟨hstands, hrest⟩ := standsAt_append_iff.mp hzs
  obtain ⟨hi, -⟩ := standsAt_cons_iff.mp hrest
  refine ⟨x.lo + front.length, by omega, ⟨_, hstands, rfl, hfront⟩, ⟨front ++ [i], ?_, ?_, ?_⟩, hi⟩
  · exact standsAt_append_iff.mpr ⟨hstands, standsAt_cons_iff.mpr ⟨hi, standsAt_nil⟩⟩
  · rw [List.length_append, List.length_singleton, Nat.add_assoc]
  · rw [withoutLines_append, withoutLines_append, hfront]

/-- What is open in a stretch was opened there, or it is open where the stretch starts. -/
theorem Holds.rescuerAt_eq (h : x.Holds prog xs) (hxs : Balanced xs) (hr : Covers prog x.lo r)
    (hlo : x.lo ≤ n) (hhi : n ≤ x.hi) : rescuerAt prog n ∈ starts xs ∨ rescuerAt prog n = r := by
  obtain ⟨ys, hys, hlast, hsame⟩ := h
  obtain ⟨opened, hopened, rfl⟩ := hr
  have hbalanced := hxs.of_withoutLines hsame
  have hstarts : starts ys = starts xs := by rw [← starts_withoutLines, hsame, starts_withoutLines]
  rw [← List.take_append_drop (n - x.lo) ys] at hbalanced hys hstarts
  obtain ⟨inner, hinner⟩ := regions_of_append hbalanced
  have htake : prog.take n = prog.take x.lo ++ ys.take (n - x.lo) := by
    have hadd := (standsAt_append_iff.mp hys).1.take_add
    rwa [List.length_take_of_le (by omega), Nat.add_sub_of_le hlo] at hadd
  have hregions : regions [] (prog.take n) = some (inner ++ opened) := by
    rw [htake, regions_append, hopened, Option.bind_some]
    exact regions_outer hinner
  rw [rescuerAt, hregions, Option.getD_some]
  cases inner with
  | nil => exact .inr rfl
  | cons l inner =>
    rcases mem_starts_of_regions hinner List.mem_cons_self with hl | hl
    · cases hl
    · refine .inl ?_
      rw [← hstarts, starts_append]
      exact List.mem_append_left _ hl

/-- The same label covers what follows. -/
theorem Holds.covers (h : x.Holds prog xs) (hxs : Balanced xs) (hr : Covers prog x.lo r) :
    Covers prog x.hi r := by
  obtain ⟨ys, hys, hlast, hsame⟩ := h
  obtain ⟨opened, hopened, rfl⟩ := hr
  refine ⟨opened, ?_, rfl⟩
  rw [hlast, hys.take_add, regions_append, hopened, Option.bind_some]
  exact (hxs.of_withoutLines hsame).regions_eq

end Stretch

end Covering

section Arms

variable {V : Type} {R : Runtime V} {prog as : List Instr} {x y : Stretch} {n m lo mid hi : Nat}
  {σ τ : Variable → V} {w : List Nat} {o : Progress V} {i : Instr} {r l : Label} {h h' : List Label}
  {c : Code} {P : Nat → Prop} {value test : Operand}

/-- Control is sent to a label by what stands there, or by a raise under it. -/
theorem Runtime.Step.sent_cases (h : R.Step prog n σ (.sent l τ)) :
    (∃ i, prog[n]? = some i ∧ i.target? = some l) ∨ (rescuerAt prog n = l ∧ l ≠ .unrescued) := by
  generalize hz : Next.sent l τ = z at h
  cases h with
  | jumps hn | takes hn =>
    cases hz
    exact .inl ⟨_, hn, rfl⟩
  | raises =>
    rw [Next.raised] at hz
    split at hz
    · cases hz
    · next hne =>
      cases hz
      exact .inr ⟨rfl, hne⟩
  | idles | does | leaves | declines => cases hz

theorem Stretch.Lacks.mono (h : x.Lacks prog l) (hlo : x.lo ≤ y.lo) (hhi : y.hi ≤ x.hi) :
    y.Lacks prog l := fun n hn hn' => h n (hlo.trans hn) (hn'.trans_le hhi)

/-- A label that stands before or behind is not in the middle. -/
theorem Stretch.lacks_mid {before mid behind : List Instr}
    (hprog : WellPlaced (before ++ (mid ++ behind))) (hl : .label l ∈ before ∨ .label l ∈ behind) :
    Lacks ⟨before.length, before.length + mid.length⟩ (before ++ (mid ++ behind)) l := by
  intro n hn hn' hget
  dsimp only at hn hn'
  rcases hl with hl | hl <;> obtain ⟨m, hm⟩ := List.mem_iff_getElem?.mp hl
  · have hlt := (List.getElem?_eq_some_iff.mp hm).1
    have := hprog.index_eq hget ((List.getElem?_append_left hlt).trans hm)
    omega
  · have hat : (before ++ (mid ++ behind))[before.length + mid.length + m]? = some (.label l) := by
      rw [← List.append_assoc, List.getElem?_append_right (by rw [List.length_append]; omega),
        List.length_append, Nat.add_sub_cancel_left, hm]
    have := hprog.index_eq hget hat
    omega

/-- Control that comes to an arm does there what the arm does, if nothing more is done behind it. What
the arm goes to is in the arm or outside of the whole. -/
theorem goes_arm (hprog : WellPlaced prog) (hlo : x.lo ≤ lo) (hhi : hi ≤ x.hi)
    (hy : Stretch.Holds ⟨lo, hi⟩ prog as) (hw : Writes r h c as h') (hc : c.IsConfined P)
    (hr : Covers prog lo r) (hcover : r ≠ .unrescued → x.Lacks prog r)
    (hgiven : ∀ l, Given P h l → x.Lacks prog l)
    (hend : R.IsOver prog x hi) : R.Goes prog x lo σ w o ↔ R.Performs prog ⟨lo, hi⟩ σ w o := by
  have hstays := hw.staysIn hc
  have hplaced : ∀ {l}, l ∈ placed as → ∃ m, lo ≤ m ∧ m < hi ∧ prog[m]? = some (.label l) :=
    fun hl => hy.exists_index (mem_placed.mp hl) rfl
  refine goes_iff_of_inside hprog hlo hhi (fun {n σ l τ} hn hn' hstep => ?_) hend le_rfl hy.le
  rcases hstep.sent_cases with ⟨i, hi, htarget⟩ | ⟨rfl, hne⟩
  · have hline : i.isLine = false := by cases i <;> first | rfl | cases htarget
    have hl : l ∈ targets as := List.mem_filterMap.mpr ⟨i, hy.mem hn hn' hi hline, htarget⟩
    exact (hstays.targets hl).imp hplaced (hgiven l)
  · rcases hy.rescuerAt_eq hw.balanced hr hn hn'.le with hl | he
    · rcases hstays.starts hl with hl | hl
      · exact .inl (hplaced hl)
      · rw [List.mem_singleton.mp hl] at hne ⊢
        exact .inr (hcover hne)
    · rw [he] at hne ⊢
      exact .inr (hcover hne)

/-- What stands there moves control to the label, or else lets it pass, and does nothing else. -/
structure Runtime.Forks (R : Runtime V) (prog : List Instr) (n : Nat) (l : Label)
    (goes : (Variable → V) → Prop) : Prop where
  deeds_eq : deeds prog n = []
  sends {σ : Variable → V} {z : Next V} : goes σ → (R.Step prog n σ z ↔ z = .sent l σ)
  passes {σ : Variable → V} {z : Next V} : ¬ goes σ → (R.Step prog n σ z ↔ z = .past σ)

theorem forks_branchUnlessEqual (hn : prog[n]? = some (.branchUnlessEqual l value test)) :
    R.Forks prog n l fun σ => ¬ R.Matches σ value test := by
  obtain ⟨op, test', hbranch, htakes⟩ := branchUnlessEqual_cases l value test
  rw [hbranch] at hn
  exact ⟨deeds_eq_nil hn rfl, fun hσ => step_taken hn ((htakes R _).mpr hσ),
    fun hσ => step_declined hn (mt (htakes R _).mp hσ)⟩

theorem forks_jump (hn : prog[n]? = some (.jump l)) : R.Forks prog n l fun _ => True :=
  ⟨deeds_eq_nil hn rfl, fun _ => step_jump hn, fun hσ => absurd trivial hσ⟩

theorem forks_branchIf (hi : Instr.branchIf? value test l = some i) (hn : prog[n]? = some i) :
    R.Forks prog n l fun σ => R.Matches σ value test := by
  rcases branchIf_cases hi with ⟨rfl, hnever⟩ | ⟨rfl, halways⟩ | ⟨op, rfl, htakes⟩
  · exact ⟨deeds_eq_nil hn rfl, fun hσ => absurd hσ (hnever R _), fun _ => step_idle hn rfl⟩
  · exact ⟨deeds_eq_nil hn rfl, fun _ => step_jump hn, fun hσ => absurd (halways R _) hσ⟩
  · exact ⟨deeds_eq_nil hn rfl, fun hσ => step_taken hn ((htakes R _).mpr hσ),
      fun hσ => step_declined hn (mt (htakes R _).mp hσ)⟩

/-- A label lets control pass that comes to it, by a jump too. -/
theorem goes_label (hi : Stretch.Holds ⟨lo, mid⟩ prog [.label l]) :
    ∃ m, lo ≤ m ∧ m < mid ∧ prog[m]? = some (.label l) ∧
      ∀ {V : Type} {R : Runtime V} {x : Stretch} {σ : Variable → V} {w : List Nat} {o : Progress V},
        x.lo ≤ lo → mid ≤ x.hi → (R.Goes prog x lo σ w o ↔ R.Goes prog x mid σ w o) ∧
          (R.Goes prog x m σ w o ↔ R.Goes prog x mid σ w o) := by
  obtain ⟨m, hm, hm', hlabel, hsole⟩ := exists_sole hi rfl
  refine ⟨m, hm, hm', hlabel, fun {V R x σ w o} hlo hhi => ?_⟩
  obtain ⟨hbefore, hbehind⟩ := hsole (R := R) (σ := σ) (w := w) (o := o) hlo hhi
  have hpass : R.Goes prog x m σ w o ↔ R.Goes prog x (m + 1) σ w o :=
    goes_past_iff (fun _ => step_idle hlabel rfl) (deeds_eq_nil hlabel rfl) (hlo.trans hm)
      (hm'.trans_le hhi)
  exact ⟨hbefore.trans (hpass.trans hbehind), hpass.trans hbehind⟩

section Fork

variable {goes : (Variable → V) → Prop}

theorem goes_of_passes (hi : Stretch.Holds ⟨lo, mid⟩ prog [i]) (hline : i.isLine = false)
    (hfork : ∀ n, prog[n]? = some i → R.Forks prog n l goes) (hlo : x.lo ≤ lo) (hhi : mid ≤ x.hi)
    (hσ : ¬ goes σ) : R.Goes prog x lo σ w o ↔ R.Goes prog x mid σ w o := by
  obtain ⟨m, hm, hm', hget, hsole⟩ := exists_sole hi hline
  obtain ⟨hbefore, hbehind⟩ := hsole (R := R) (σ := σ) (w := w) (o := o) hlo hhi
  have hstep := hfork m hget
  exact hbefore.trans ((goes_past_iff (fun _ => hstep.passes hσ) hstep.deeds_eq (hlo.trans hm)
    (hm'.trans_le hhi)).trans hbehind)

theorem goes_of_sends (hprog : WellPlaced prog) (hi : Stretch.Holds ⟨lo, mid⟩ prog [i])
    (hline : i.isLine = false) (hfork : ∀ n, prog[n]? = some i → R.Forks prog n l goes)
    (hlo : x.lo ≤ lo) (hhi : mid ≤ x.hi) (hσ : goes σ) (hn : prog[n]? = some (.label l))
    (hnlo : x.lo ≤ n) (hnhi : n < x.hi) : R.Goes prog x lo σ w o ↔ R.Goes prog x n σ w o := by
  obtain ⟨m, hm, hm', hget, hsole⟩ := exists_sole hi hline
  have hstep := hfork m hget
  exact (hsole hlo hhi).1.trans (goes_sent_iff hprog (fun _ => hstep.sends hσ) hstep.deeds_eq
    (hlo.trans hm) (hm'.trans_le hhi) hn hnlo hnhi)

theorem goes_of_leaves (hi : Stretch.Holds ⟨lo, mid⟩ prog [i]) (hline : i.isLine = false)
    (hfork : ∀ n, prog[n]? = some i → R.Forks prog n l goes) (hlo : x.lo ≤ lo) (hhi : mid ≤ x.hi)
    (hσ : goes σ) (hout : x.Lacks prog l) :
    R.Goes prog x lo σ w o ↔ w = [] ∧ (o = .going σ ∨ o = .sent l σ) := by
  obtain ⟨m, hm, hm', hget, hsole⟩ := exists_sole hi hline
  have hstep := hfork m hget
  exact (hsole hlo hhi).1.trans (goes_out_iff (fun _ => hstep.sends hσ) hstep.deeds_eq
    (hlo.trans hm) (hm'.trans_le hhi) hout)

end Fork

end Arms

/-- What a conditional does on one side. -/
inductive Way where
  | runs (c : Code)
  /-- It goes to the label that was handed out with this number. -/
  | goes (target : Nat)

namespace Code

/-- The code goes one way if the value matches the test, and else the other way, where `n` labels were
handed out. An arm goes to no labels in the other one. -/
inductive Chooses (n : Nat) (value test : Operand) : Code → Way → Way → Prop
  | ifElse {yes no : Code} : yes.IsConfined (fun _ => True) →
    no.IsConfined (fun m => m < n ∨ n + yes.hands ≤ m) →
    Chooses n value test (.ifElse value test yes no) (.runs yes) (.runs no)
  | ifNot {body : Code} : body.IsConfined (fun _ => True) →
    Chooses n value test (.ifNot value test body) (.runs .done) (.runs body)
  | condWith {target : Nat} {body : Code} : target < n → body.IsConfined (fun _ => True) →
    Chooses n value test (.seq (.cond target value test) body) (.goes target) (.runs body)
  | condNeWith {target : Nat} {body : Code} : target < n → body.IsConfined (fun _ => True) →
    Chooses n value test (.seq (.condNe target value test) body) (.runs body) (.goes target)

section Handed

variable {target : Nat} {act : Label → SessionM Unit} {place : Nesting} {s : Session} {h : Trail}
  {l : Label} {value test : Operand} {body : Code}

theorem withHanded_apply (hl : h.handed[target]? = some l) :
    TrailM.withHanded target act s h = (liftM (act l) : TrailM Unit) s h := by
  have htrail : TrailM.trail s h = ((.ok h, s), h) := rfl
  rw [TrailM.withHanded, BuildT.bind_apply, htrail]
  dsimp only
  rw [hl]

/-- The conditionals of one arm go to a label that was handed out. -/
theorem build_condWith (hl : h.handed[target]? = some l) :
    (seq (.cond target value test) body).build place s h =
      (BuildT.condWith l value test (body.build place) : TrailM Unit) s h := by
  change (TrailM.withHanded target (fun l => Session.cond l value test) >>=
    fun _ => body.build place) s h = _
  rw [BuildT.condWith, BuildT.bind_apply, BuildT.bind_apply, withHanded_apply hl]

theorem build_condNeWith (hl : h.handed[target]? = some l) :
    (seq (.condNe target value test) body).build place s h =
      (BuildT.condNeWith l value test (body.build place) : TrailM Unit) s h := by
  change (TrailM.withHanded target (fun l => Session.condNe l value test) >>=
    fun _ => body.build place) s h = _
  rw [BuildT.condNeWith, BuildT.bind_apply, BuildT.bind_apply, withHanded_apply hl]

end Handed

/-- Where nothing is to be built nothing is written. -/
theorem isBuilt_done {h : List Label} : done.IsBuilt h [] h :=
  ⟨⟨.method, []⟩, .single .method, .single .method, [], [], rfl, Emits.refl _⟩

/-- Both ways meet at a label behind the code. -/
def joins : Code → Bool
  | ifElse .. | ifNot .. => true
  | _ => false

end Code

/-- What stands for a way in a list. -/
inductive Side where
  | part (y : Stretch)
  | label (l : Label)

/-- The list of the code stands there. These labels were handed out before it. -/
def Stretch.IsOf (x : Stretch) (prog : List Instr) (h : List Label) (c : Code) : Prop :=
  ∃ xs h', c.IsBuilt h xs h' ∧ x.Holds prog xs

/-- The side stands for the way, a part from one index up to another. -/
def Side.IsOf (prog : List Instr) (h : List Label) (lo hi : Nat) : Side → Way → Prop
  | part y, .runs c => lo ≤ y.lo ∧ y.hi ≤ hi ∧ ∃ h', h <+: h' ∧ y.IsOf prog h' c
  | label l, .goes target => h[target]? = some l
  | _, _ => False

theorem Side.IsOf.part {prog xs : List Instr} {h h' h'' : List Label} {lo hi a b : Nat} {c : Code}
    (ha : lo ≤ a) (hb : b ≤ hi) (hh : h <+: h') (hbuilt : c.IsBuilt h' xs h'')
    (hx : Stretch.Holds ⟨a, b⟩ prog xs) : (Side.part ⟨a, b⟩).IsOf prog h lo hi (.runs c) :=
  ⟨ha, hb, h', hh, xs, h'', hbuilt, hx⟩

/-- All that happens is what the side does. -/
def Runtime.Follows {V : Type} (R : Runtime V) (prog : List Instr) (σ : Variable → V) (w : List Nat)
    (o : Progress V) : Side → Prop
  | .part y => R.Performs prog y σ w o
  | .label l => w = [] ∧ (o = .going σ ∨ o = .sent l σ)

/-- The conditional stands in the stretch, and control does there what the one side does or the other
one, by whether the value matches the test. Behind both sides is the one label where they meet, if they
do. -/
structure Splits (prog : List Instr) (h : List Label) (d : Code) (value test : Operand) (yes no : Way)
    (x : Stretch) (last : Nat) (this that : Side) : Prop where
  isOf : x.IsOf prog h d
  this_isOf : this.IsOf prog h x.lo last yes
  that_isOf : that.IsOf prog h x.lo last no
  hi_eq : x.hi = if d.joins then last + 1 else last
  joined : d.joins → ∃ l, prog[last]? = some (.label l) ∧ prog.count (.label l) = 1
  matching {V : Type} (R : Runtime V) {σ : Variable → V} {w : List Nat} {o : Progress V} :
    R.Matches σ value test → (R.Performs prog x σ w o ↔ R.Follows prog σ w o this)
  differing {V : Type} (R : Runtime V) {σ : Variable → V} {w : List Nat} {o : Progress V} :
    ¬ R.Matches σ value test → (R.Performs prog x σ w o ↔ R.Follows prog σ w o that)

/-- The code is written in the stretch, and neither the label that covers it nor those that were handed
out before are there. -/
structure Sits (prog : List Instr) (x : Stretch) (c : Code) (r : Label) (h : List Label)
    (xs : List Instr) (h' : List Label) : Prop where
  built : c.IsBuilt h xs h'
  writes : Writes r h c xs h'
  holds : x.Holds prog xs
  covers : Covers prog x.lo r
  lacks_cover : r ≠ .unrescued → x.Lacks prog r
  lacks_given {l : Label} : l ∈ h → x.Lacks prog l

namespace Sits

variable {prog xs : List Instr} {x : Stretch} {r l : Label} {h h' : List Label} {c body : Code}
  {value test : Operand}

/-- Whatever is behind the label is left out. -/
theorem upTo (hs : Sits prog x c r h (xs ++ [.label l]) h') :
    ∃ y n, Sits prog y c r h (xs ++ [.label l]) h' ∧ y.hi = n + 1 ∧ Stretch.Holds ⟨y.lo, n⟩ prog xs ∧
      prog[n]? = some (.label l) := by
  obtain ⟨n, hn, hfront, hwhole, hlabel⟩ := hs.holds.upTo rfl
  exact ⟨⟨x.lo, n + 1⟩, n, ⟨hs.built, hs.writes, hwhole, hs.covers,
    fun hr => (hs.lacks_cover hr).mono le_rfl hn, fun hl => (hs.lacks_given hl).mono le_rfl hn⟩, rfl,
    hfront, hlabel⟩

/-- At the label where both sides meet nothing more is done. -/
theorem isOver_label {V : Type} {R : Runtime V} {n : Nat} (hlabel : prog[n]? = some (.label l))
    (hlo : x.lo ≤ n) (hhi : x.hi = n + 1) : R.IsOver prog x n := by
  intro σ w o
  have hpass : R.Goes prog x n σ w o ↔ R.Goes prog x (n + 1) σ w o :=
    goes_past_iff (fun _ => step_idle hlabel rfl) (deeds_eq_nil hlabel rfl) hlo (by omega)
  rw [hpass, ← hhi]
  exact isOver_hi (by omega) σ w o

theorem count_label (hprog : WellPlaced prog) {n : Nat} (hn : prog[n]? = some (.label l)) :
    prog.count (.label l) = 1 :=
  Nat.le_antisymm (hprog.atMostOnce l) (List.count_pos_iff.mpr (List.mem_of_getElem? hn))

theorem performs_arm {V : Type} {R : Runtime V} {σ : Variable → V} {w : List Nat} {o : Progress V}
    {lo hi : Nat} {arm : Code} {as : List Instr} {h₁ h₂ : List Label} {P : Nat → Prop}
    (hprog : WellPlaced prog) (hs : Sits prog x c r h xs h') (hlo : x.lo ≤ lo) (hhi : hi ≤ x.hi)
    (hy : Stretch.Holds ⟨lo, hi⟩ prog as) (hw : Writes r h₁ arm as h₂) (harm : arm.IsConfined P)
    (hr : Covers prog lo r) (hgiven : ∀ l, Given P h₁ l → l ∈ h) (hend : R.IsOver prog x hi) :
    R.Goes prog x lo σ w o ↔ R.Performs prog ⟨lo, hi⟩ σ w o :=
  goes_arm hprog hlo hhi hy hw harm hr hs.lacks_cover (fun l hl => hs.lacks_given (hgiven l hl)) hend

theorem splits_ifElse {yes no : Code} (hprog : WellPlaced prog)
    (hs : Sits prog x (.ifElse value test yes no) r h xs h') (hyes : yes.IsConfined fun _ => True)
    (hno : no.IsConfined fun m => m < h.length ∨ h.length + yes.hands ≤ m) :
    ∃ x last this that, Splits prog h (.ifElse value test yes no) value test (.runs yes) (.runs no) x
      last this that := by
  have hw := hs.writes
  cases hw with
  | @ifElse _ _ h₁ _ _ _ _ _ as bs elseLabel endLabel hbuilt hbuilt' hwyes hwno =>
    obtain ⟨x, e, hs, hhi, hbody, hend⟩ := hs.upTo
    obtain ⟨p₂, hfront, hback⟩ := hbody.split
    obtain ⟨p₁, hbranch, hy⟩ := hfront.split_cons
    obtain ⟨p₃, hjump, hrest⟩ := hback.split_cons
    obtain ⟨p₄, helse, hz⟩ := hrest.split_cons
    have h₁le := hbranch.le
    have h₂le := hy.le
    have h₃le := hjump.le
    have h₄le := helse.le
    have h₅le := hz.le
    have hmove : (Instr.branchUnlessEqual elseLabel value test).isMove := isMove_branchUnlessEqual
    have hcovers₁ : Covers prog p₁ r :=
      hbranch.covers (.cons (Instr.isInside_of_isMove hmove) .nil) hs.covers
    have hcovers₂ : Covers prog p₄ r :=
      helse.covers rfl (hjump.covers rfl (hy.covers hwyes.balanced hcovers₁))
    have hcounted := count_label hprog hend
    obtain ⟨n, hn, hn', helsewhere, hpass⟩ := goes_label helse
    refine ⟨x, e, .part ⟨p₁, p₂⟩, .part ⟨p₄, e⟩, ⟨_, _, hs.built, hs.holds⟩,
      .part (by omega) (by omega) List.prefix_rfl hbuilt hy,
      .part (by omega) le_rfl hwyes.handed_prefix hbuilt' hz, hhi, fun _ => ⟨_, hend, hcounted⟩,
      fun {V} R {σ w o} hσ => ?_, fun {V} R {σ w o} hσ => ?_⟩
    · have hdone : R.IsOver prog x p₂ := by
        intro σ w o
        refine (goes_of_sends hprog hjump rfl (fun n hn => forks_jump hn) ?_ ?_ trivial hend ?_ ?_).trans
          (isOver_label hend ?_ hhi σ w o) <;> omega
      refine (goes_of_passes hbranch (Instr.isLine_of_isMove hmove)
        (fun n hn => forks_branchUnlessEqual hn) le_rfl ?_ (not_not.mpr hσ)).trans
        (hs.performs_arm hprog ?_ ?_ hy hwyes hyes hcovers₁ (fun l hl => given_true.mp hl) hdone)
      all_goals omega
    · have hdone : R.IsOver prog x e := isOver_label hend (by omega) hhi
      have hgiven : ∀ l, Given (fun m => m < h.length ∨ h.length + yes.hands ≤ m) h₁ l → l ∈ h := by
        rintro l ⟨m, hm, hl⟩
        have hlt := (List.getElem?_eq_some_iff.mp hl).1
        rw [hwyes.length_handed] at hlt
        obtain ⟨k, rfl⟩ := hwyes.handed_prefix
        rw [List.getElem?_append_left (by omega)] at hl
        exact List.mem_of_getElem? hl
      refine (goes_of_sends hprog hbranch (Instr.isLine_of_isMove hmove)
        (fun n hn => forks_branchUnlessEqual hn) le_rfl ?_ hσ helsewhere ?_ ?_).trans
        ((hpass ?_ ?_).2.trans (hs.performs_arm hprog ?_ ?_ hz hwno hno hcovers₂ hgiven hdone))
      all_goals omega
  | silent hc | exit hc | stray hc => cases hc

theorem splits_ifNot (hprog : WellPlaced prog) (hs : Sits prog x (.ifNot value test body) r h xs h')
    (hbody : body.IsConfined fun _ => True) :
    ∃ x last this that, Splits prog h (.ifNot value test body) value test (.runs .done) (.runs body) x
      last this that := by
  have hw := hs.writes
  cases hw with
  | @ifNot _ _ _ _ _ _ as after i hi hbuilt hwbody =>
    obtain ⟨x, e, hs, hhi, hfront, hend⟩ := hs.upTo
    obtain ⟨p, hbranch, hy⟩ := hfront.split_cons
    have h₁le := hbranch.le
    have h₂le := hy.le
    have hmove := isMove_of_branchIf hi
    have hcovers : Covers prog p r :=
      hbranch.covers (.cons (Instr.isInside_of_isMove hmove) .nil) hs.covers
    have hcounted := count_label hprog hend
    have hdone : ∀ {V} {R : Runtime V}, R.IsOver prog x e := isOver_label hend (by omega) hhi
    have hnothing : Stretch.Holds ⟨e, e⟩ prog [] := ⟨[], standsAt_nil, rfl, rfl⟩
    refine ⟨x, e, .part ⟨e, e⟩, .part ⟨p, e⟩, ⟨_, _, hs.built, hs.holds⟩,
      .part (by omega) le_rfl List.prefix_rfl Code.isBuilt_done hnothing,
      .part (by omega) le_rfl List.prefix_rfl hbuilt hy, hhi, fun _ => ⟨_, hend, hcounted⟩,
      fun {V} R {σ w o} hσ => ?_, fun {V} R {σ w o} hσ => ?_⟩
    · refine (goes_of_sends hprog hbranch (Instr.isLine_of_isMove hmove)
        (fun n hn => forks_branchIf hi hn) le_rfl ?_ hσ hend ?_ ?_).trans
        ((hdone σ w o).trans (isOver_hi le_rfl σ w o).symm)
      all_goals omega
    · refine (goes_of_passes hbranch (Instr.isLine_of_isMove hmove)
        (fun n hn => forks_branchIf hi hn) le_rfl ?_ hσ).trans
        (hs.performs_arm hprog ?_ ?_ hy hwbody hbody hcovers (fun l hl => given_true.mp hl) hdone)
      all_goals omega
  | silent hc | exit hc | stray hc => cases hc

/-- What is behind a fork that may leave the stretch. -/
theorem performs_behind {i : Instr} {as : List Instr}
    {goes : ∀ {V : Type}, Runtime V → (Variable → V) → Prop}
    (hprog : WellPlaced prog) (hs : Sits prog x c r h (i :: as) h') (hmove : i.isMove)
    (hfork : ∀ {V : Type} (R : Runtime V) n, prog[n]? = some i → R.Forks prog n l (goes R)) (hl : l ∈ h)
    (hw : Writes r h body as h') (hbody : body.IsConfined fun _ => True) :
    ∃ p, x.lo ≤ p ∧ Stretch.Holds ⟨p, x.hi⟩ prog as ∧
      ∀ {V : Type} (R : Runtime V) {σ : Variable → V} {w : List Nat} {o : Progress V},
        (goes R σ → (R.Performs prog x σ w o ↔ w = [] ∧ (o = .going σ ∨ o = .sent l σ))) ∧
        (¬ goes R σ → (R.Performs prog x σ w o ↔ R.Performs prog ⟨p, x.hi⟩ σ w o)) := by
  obtain ⟨p, hi, hy⟩ := hs.holds.split_cons
  have hline := Instr.isLine_of_isMove hmove
  have hcovers : Covers prog p r := hi.covers (.cons (Instr.isInside_of_isMove hmove) .nil) hs.covers
  refine ⟨p, hi.le, hy, fun {V} R {σ w o} => ⟨fun hσ => ?_, fun hσ => ?_⟩⟩
  · exact goes_of_leaves hi hline (hfork R) le_rfl hy.le hσ (hs.lacks_given hl)
  · exact (goes_of_passes hi hline (hfork R) le_rfl hy.le hσ).trans (hs.performs_arm hprog hi.le le_rfl
      hy hw hbody hcovers (fun l hl => given_true.mp hl) (isOver_hi (hi.le.trans hy.le)))

theorem splits_condWith {target : Nat} (hprog : WellPlaced prog)
    (hs : Sits prog x (.seq (.cond target value test) body) r h xs h') (htarget : target < h.length)
    (hbody : body.IsConfined fun _ => True) :
    ∃ x last this that, Splits prog h (.seq (.cond target value test) body) value test (.goes target)
      (.runs body) x last this that := by
  have hw := hs.writes
  cases hw with
  | seq hbuilt hbuilt' hwcond hwbody =>
    cases hwcond with
    | @cond _ _ _ _ _ l i hl hi =>
      obtain ⟨p, hp, hy, hperforms⟩ := hs.performs_behind hprog (isMove_of_branchIf hi)
        (fun R n hn => forks_branchIf hi hn) (List.mem_of_getElem? hl) hwbody hbody
      exact ⟨x, x.hi, .label l, .part ⟨p, x.hi⟩, ⟨_, _, hs.built, hs.holds⟩, hl,
        .part hp le_rfl List.prefix_rfl hbuilt' hy, rfl, fun hjoins => absurd hjoins Bool.false_ne_true,
        fun R => (hperforms R).1, fun R => (hperforms R).2⟩
    | stray hc hnone =>
      cases hc
      rw [List.getElem?_eq_none_iff] at hnone
      omega
    | silent hc | exit hc => cases hc
  | silent hc | exit hc | stray hc => cases hc

theorem splits_condNeWith {target : Nat} (hprog : WellPlaced prog)
    (hs : Sits prog x (.seq (.condNe target value test) body) r h xs h') (htarget : target < h.length)
    (hbody : body.IsConfined fun _ => True) :
    ∃ x last this that, Splits prog h (.seq (.condNe target value test) body) value test (.runs body)
      (.goes target) x last this that := by
  have hw := hs.writes
  cases hw with
  | seq hbuilt hbuilt' hwcond hwbody =>
    cases hwcond with
    | @condNe _ _ _ _ _ l hl =>
      obtain ⟨p, hp, hy, hperforms⟩ := hs.performs_behind hprog isMove_branchUnlessEqual
        (fun R n hn => forks_branchUnlessEqual hn) (List.mem_of_getElem? hl) hwbody hbody
      exact ⟨x, x.hi, .part ⟨p, x.hi⟩, .label l, ⟨_, _, hs.built, hs.holds⟩,
        .part hp le_rfl List.prefix_rfl hbuilt' hy, hl, rfl,
        fun hjoins => absurd hjoins Bool.false_ne_true,
        fun {V} R {σ w o} hσ => (hperforms R).2 (not_not.mpr hσ), fun R => (hperforms R).1⟩
    | stray hc hnone =>
      cases hc
      rw [List.getElem?_eq_none_iff] at hnone
      omega
    | silent hc | exit hc => cases hc
  | silent hc | exit hc | stray hc => cases hc

theorem splits {d : Code} {yes no : Way} (hprog : WellPlaced prog) (hs : Sits prog x d r h xs h')
    (hd : d.Chooses h.length value test yes no) :
    ∃ x last this that, Splits prog h d value test yes no x last this that := by
  cases hd with
  | ifElse hyes hno => exact hs.splits_ifElse hprog hyes hno
  | ifNot hbody => exact hs.splits_ifNot hprog hbody
  | condWith htarget hbody => exact hs.splits_condWith hprog htarget hbody
  | condNeWith htarget hbody => exact hs.splits_condNeWith hprog htarget hbody

end Sits

section Build

open TrailM

variable {c d : Code} {place : Nesting} {s t : Session} {h k : Trail} {n : Nat}

/-- Each part of the code has a stretch of its own in the list of the scope. -/
theorem exists_sits (hs : s.builder.Fresh) (hh : h.handed = [])
    (hbuild : Runs (c.build place) s h () t k) (hd : d.IsAmong n c 0) :
    WellPlaced t.builder.instrs.toList ∧ ∃ x r given xs later, given.length = n ∧
      Sits t.builder.instrs.toList x d r given xs later := by
  obtain ⟨ys, hemits', hplacing⟩ := Code.placing_of_build hs hh hbuild
  have hprog : WellPlaced ([] ++ t.builder.instrs.toList) :=
    wellPlaced_of_placing hs hemits' hplacing fun _ hi => absurd hi List.not_mem_nil
  obtain ⟨zs, hemits, hbuilt, hwrites⟩ := (c.buildsOut_build place (framed_of_fresh hs)).result hbuild
  have hrescuer : s.builder.rescuer = .unrescued := by rw [Builder.rescuer, hs.rescuers]; rfl
  rw [hh] at hbuilt hwrites
  rw [hrescuer] at hwrites
  obtain ⟨r, given, later, opened, front, xs, back, hpart, hw, hlength, rfl, hfront, hopened, hr,
    hgiven⟩ := hwrites.contains hbuilt hd
  have hlist := list_of_fresh hs hemits
  rw [withoutLines_append, withoutLines_append, List.append_assoc, ← List.append_assoc] at hlist
  generalize t.builder.instrs.toList = prog at *
  obtain ⟨before, rest, rfl, hbefore, hrest⟩ := List.filter_eq_append_iff.mp hlist
  obtain ⟨mid, behind, rfl, hmid, hbehind⟩ := List.filter_eq_append_iff.mp hrest
  have hstands : StandsAt (before ++ (mid ++ behind)) before.length mid := by
    rw [StandsAt, List.drop_left]
    exact List.prefix_append _ _
  have hout : ∀ {l}, l ∈ placed (front ++ back) →
      Stretch.Lacks ⟨before.length, before.length + mid.length⟩ (before ++ (mid ++ behind)) l := by
    intro l hl
    have hplaced : placed before = placed (t.builder.prologue ++ withoutLines front) := by
      rw [← hbefore]
      exact placed_withoutLines.symm
    have hplaced' : placed behind = placed back := by
      rw [← placed_withoutLines, withoutLines, hbehind, placed_withoutLines]
    refine Stretch.lacks_mid hprog ?_
    rw [← mem_placed, ← mem_placed, hplaced, hplaced', placed_append, placed_withoutLines,
      List.mem_append]
    exact (List.mem_append.mp (placed_append ▸ hl)).imp_left .inr
  refine ⟨hprog, ⟨before.length, before.length + mid.length⟩, r, given, xs, later, hlength, hpart, hw,
    ⟨mid, hstands, rfl, hmid⟩, ⟨opened, ?_, hopened⟩, fun hne => ?_, fun hl => ?_⟩
  · rw [List.take_left, ← regions_withoutLines, withoutLines, hbefore, regions_append, regions_prologue,
      Option.bind_some, regions_withoutLines, hfront]
  · exact hout (hr.resolve_left hne)
  · exact hout ((hgiven _ hl).resolve_left List.not_mem_nil)

/-- Wherever a conditional stands in code, in arms of other ones too: the list of the scope has a stretch
for it, and entering the stretch is to do what the one side does where the value matches the test, and
what the other one does where it does not. -/
theorem conditionals_of_build {value test : Operand} {yes no : Way} (hs : s.builder.Fresh)
    (hh : h.handed = []) (hbuild : Runs (c.build place) s h () t k) (hpart : d.IsAmong n c 0)
    (hd : d.Chooses n value test yes no) :
    WellPlaced t.builder.instrs.toList ∧ ∃ given x last this that, given.length = n ∧
      Splits t.builder.instrs.toList given d value test yes no x last this that := by
  obtain ⟨hprog, x, r, given, xs, later, rfl, hsits⟩ := exists_sits hs hh hbuild hpart
  obtain ⟨x, last, this, that, hsplits⟩ := hsits.splits hprog hd
  exact ⟨hprog, given, x, last, this, that, rfl, hsplits⟩

/-- Values are atoms, and instructions do nothing. -/
def Runtime.idle : Runtime Atom where
  const := id
  hash _ := .nil
  splat := id
  truthy a := (Operand.atom a).isTruthy
  does _ σ τ := τ = σ
  raises _ _ _ := False
  truthy_of_isTruthy := id
  not_truthy_of_isFalsey {a} hfalsey htruthy := by
    cases a with
    | boolean b =>
      cases b with
      | false => exact Bool.false_ne_true htruthy
      | true => exact Bool.false_ne_true hfalsey
    | nil => cases htruthy
    | _ => cases hfalsey

/-- What a round does if it is not skipped: one of two calls. -/
def Code.eitherCall : Code :=
  .ifElse (.var (.ofName "a")) (.boolean true)
    (.ifNot (.var .self) .undefined (.call .self .normal (.var .self) ⟨"open"⟩ [] .nullBlock ∅))
    (.call .self .normal (.var .self) ⟨"close"⟩ [] .nullBlock ∅)

/-- A loop that nil ends, and whose rounds are skipped by what differs from the receiver. -/
def Code.skippingLoop : Code :=
  .forLoop (.cond 0 (.var .self) .nil) .done
    (.seq (.condNe 1 (.var (.ofName "b")) (.var .self)) .eitherCall)

theorem conditionals_of_build_skippingLoop : ∃ t k,
    Runs (Code.skippingLoop.build ⟨.method, []⟩) (single .method) ⟨[], []⟩ () t k ∧
    (∃ given x last this that, given.length = 2 ∧
      Splits t.builder.instrs.toList given
        (.seq (.condNe 1 (.var (.ofName "b")) (.var .self)) .eitherCall) (.var (.ofName "b"))
        (.var .self) (.runs .eitherCall) (.goes 1) x last this that ∧
      ∀ w o, Runtime.idle.Performs t.builder.instrs.toList x (fun _ => .nil) w o ↔
        Runtime.idle.Follows t.builder.instrs.toList (fun _ => .nil) w o this) ∧
    ∃ given x last this that, given.length = 2 ∧
      Splits t.builder.instrs.toList given
        (.ifNot (.var .self) .undefined (.call .self .normal (.var .self) ⟨"open"⟩ [] .nullBlock ∅))
        (.var .self) .undefined (.runs .done)
        (.runs (.call .self .normal (.var .self) ⟨"open"⟩ [] .nullBlock ∅)) x last this that := by
  have hbuild := TrailM.runs_of_ok (x := Code.skippingLoop.build ⟨.method, []⟩)
    (s := single .method) (h := ⟨[], []⟩) (a := ()) (by decide +kernel)
  obtain ⟨-, given, x, last, this, that, hlength, hsplits⟩ :=
    conditionals_of_build (starts_single .method).fresh rfl hbuild (.each .whole)
      (.condNeWith (by decide) ⟨trivial, trivial⟩)
  obtain ⟨-, hinner⟩ := conditionals_of_build (starts_single .method).fresh rfl hbuild
    (.each (.rest (.yes .whole))) (.ifNot trivial)
  exact ⟨_, _, hbuild, ⟨given, x, last, this, that, hlength, hsplits,
    fun w o => hsplits.matching Runtime.idle rfl⟩, hinner⟩

end Build

end ScopeIR
