import ScopeIR.Proofs.CarriedValues
import ScopeIR.Proofs.Simulation

/-! Running a stretch of a list over the values of variables. What instructions do to the variables, and
whether they raise, is left to a runtime. -/

namespace ScopeIR

open Machine

/-- Which values count as true, and what the instructions do that move no control. -/
structure Runtime (V : Type) extends Domain V where
  truthy : V → Prop
  /-- The instruction may be passed, after which the variables have these values. -/
  does : Instr → (Variable → V) → (Variable → V) → Prop
  /-- The instruction may raise, after which the variables have these values. -/
  raises : Instr → (Variable → V) → (Variable → V) → Prop
  truthy_of_isTruthy {a : Atom} : (Operand.atom a).isTruthy → truthy (const a)
  not_truthy_of_isFalsey {a : Atom} : (Operand.atom a).isFalsey → ¬ truthy (const a)

/-- Control passes it, and nothing else happens. -/
def Instr.isIdle : Instr → Bool
  | .label _ | .nop | .lineNumber .. | .tracePoint _ | .regionStart _ | .regionEnd => true
  | _ => false

/-- Something is done by it. -/
def Instr.isDeed : Instr → Bool
  | .jump _ | .branch .. => false
  | i => !i.isIdle

theorem Instr.isDeed_of_isIdle {i : Instr} (h : i.isIdle) : i.isDeed = false := by
  cases i <;> first | rfl | cases h

theorem Instr.isDeed_of_leaves {i : Instr} (h : i.effect = .leaves) : i.isDeed := by
  cases i <;> first | rfl | cases h

/-- Where control goes after an instruction. -/
inductive Next (V : Type) where
  | past (store : Variable → V)
  | sent (target : Label) (store : Variable → V)
  | stop (ending : Ending) (store : Variable → V)

/-- A raise at the index goes to the label of the innermost region that is open there. -/
def Next.raised {V : Type} (prog : List Instr) (n : Nat) (σ : Variable → V) : Next V :=
  if rescuerAt prog n = .unrescued then .stop .uncaught σ else .sent (rescuerAt prog n) σ

/-- Part of a list, from one index up to another. -/
structure Stretch where
  lo : Nat
  hi : Nat

namespace Stretch

/-- The list stands in the stretch, perhaps with lines in between. -/
def Holds (x : Stretch) (prog xs : List Instr) : Prop :=
  ∃ ys, StandsAt prog x.lo ys ∧ x.hi = x.lo + ys.length ∧ withoutLines ys = withoutLines xs

/-- The label is not in the stretch. -/
def Lacks (x : Stretch) (prog : List Instr) (l : Label) : Prop :=
  ∀ n, x.lo ≤ n → n < x.hi → prog[n]? ≠ some (.label l)

end Stretch

/-- How far control has come in a stretch. -/
inductive Progress (V : Type) where
  /-- It has not left it. -/
  | going (store : Variable → V)
  | through (store : Variable → V)
  /-- It has gone to a label that is not in the stretch. -/
  | sent (target : Label) (store : Variable → V)
  | stop (ending : Ending) (store : Variable → V)

/-- The index, if something is done there. -/
def deeds (prog : List Instr) (n : Nat) : List Nat := if prog[n]?.any Instr.isDeed then [n] else []

namespace Runtime

variable {V : Type} (R : Runtime V)

/-- Against a boolean it is a test of truth, and else the two are worth the same. -/
def Matches (σ : Variable → V) (value test : Operand) : Prop :=
  match test with
  | .boolean true => R.truthy (value.read R.toDomain σ)
  | .boolean false => ¬ R.truthy (value.read R.toDomain σ)
  | test => value.read R.toDomain σ = test.read R.toDomain σ

/-- The branch is taken. -/
def Takes (σ : Variable → V) : BranchOp → Operand → Option Operand → Prop
  | .isTrue, value, _ => R.truthy (value.read R.toDomain σ)
  | .isFalse, value, _ => ¬ R.truthy (value.read R.toDomain σ)
  | .isNil, value, _ => value.read R.toDomain σ = R.const .nil
  | .isUndefined, value, _ => value.read R.toDomain σ = R.const .undefined
  | .notEqual, value, test => value.read R.toDomain σ ≠ (test.getD .nil).read R.toDomain σ

/-- One instruction is executed. -/
inductive Step (prog : List Instr) (n : Nat) (σ : Variable → V) : Next V → Prop
  | idles {i : Instr} : prog[n]? = some i → i.isIdle → Step prog n σ (.past σ)
  | does {i : Instr} {τ : Variable → V} : prog[n]? = some i → i.isDeed → i.effect ≠ .leaves →
    i.effect ≠ .raises → R.does i σ τ → Step prog n σ (.past τ)
  | raises {i : Instr} {τ : Variable → V} : prog[n]? = some i → i.isDeed → i.effect ≠ .leaves →
    R.raises i σ τ → Step prog n σ (.raised prog n τ)
  | leaves {i : Instr} : prog[n]? = some i → i.effect = .leaves → Step prog n σ (.stop .returned σ)
  | jumps {l : Label} : prog[n]? = some (.jump l) → Step prog n σ (.sent l σ)
  | takes {op : BranchOp} {l : Label} {value : Operand} {test : Option Operand} :
    prog[n]? = some (.branch op l value test) → R.Takes σ op value test → Step prog n σ (.sent l σ)
  | declines {op : BranchOp} {l : Label} {value : Operand} {test : Option Operand} :
    prog[n]? = some (.branch op l value test) → ¬ R.Takes σ op value test → Step prog n σ (.past σ)

/-- From the index on control moves in the stretch and does what stands at these indices. -/
inductive Goes (prog : List Instr) (x : Stretch) :
    Nat → (Variable → V) → List Nat → Progress V → Prop
  | rest {n : Nat} {σ : Variable → V} : x.lo ≤ n → n ≤ x.hi → Goes prog x n σ [] (.going σ)
  | through {σ : Variable → V} : Goes prog x x.hi σ [] (.through σ)
  | past {n : Nat} {σ τ : Variable → V} {w : List Nat} {o : Progress V} : x.lo ≤ n → n < x.hi →
    R.Step prog n σ (.past τ) → Goes prog x (n + 1) τ w o → Goes prog x n σ (deeds prog n ++ w) o
  | within {n m : Nat} {l : Label} {σ τ : Variable → V} {w : List Nat} {o : Progress V} : x.lo ≤ n →
    n < x.hi → R.Step prog n σ (.sent l τ) → x.lo ≤ m → m < x.hi → prog[m]? = some (.label l) →
    Goes prog x m τ w o → Goes prog x n σ (deeds prog n ++ w) o
  | out {n : Nat} {l : Label} {σ τ : Variable → V} : x.lo ≤ n → n < x.hi →
    R.Step prog n σ (.sent l τ) → x.Lacks prog l → Goes prog x n σ (deeds prog n) (.sent l τ)
  | stop {n : Nat} {e : Ending} {σ τ : Variable → V} : x.lo ≤ n → n < x.hi →
    R.Step prog n σ (.stop e τ) → Goes prog x n σ (deeds prog n) (.stop e τ)

/-- The stretch is entered at its start. -/
def Performs (prog : List Instr) (x : Stretch) (σ : Variable → V) (w : List Nat) (o : Progress V) :
    Prop := R.Goes prog x x.lo σ w o

/-- Control that comes there goes through, and nothing more is done in the stretch. -/
def IsOver (prog : List Instr) (x : Stretch) (n : Nat) : Prop :=
  ∀ σ w o, R.Goes prog x n σ w o ↔ w = [] ∧ (o = .going σ ∨ o = .through σ)

end Runtime

section Tests

variable {V : Type} {R : Runtime V} {σ : Variable → V} {value test : Operand} {target : Label}
  {i : Instr}

theorem Runtime.truthy_read (h : value.isTruthy) : R.truthy (value.read R.toDomain σ) := by
  cases value with
  | atom a =>
    cases a with
    | var v => cases h
    | _ => exact R.truthy_of_isTruthy h
  | _ => cases h

theorem Runtime.not_truthy_read (h : value.isFalsey) : ¬ R.truthy (value.read R.toDomain σ) := by
  cases value with
  | atom a =>
    cases a with
    | var v => cases h
    | _ => exact R.not_truthy_of_isFalsey h
  | _ => cases h

/-- The branch for what differs is taken where the value does not match. -/
theorem branchUnlessEqual_cases (target : Label) (value test : Operand) :
    ∃ op test', Instr.branchUnlessEqual target value test = .branch op target value test' ∧
      ∀ {V : Type} (R : Runtime V) (σ : Variable → V),
        R.Takes σ op value test' ↔ ¬ R.Matches σ value test := by
  unfold Instr.branchUnlessEqual
  split
  · exact ⟨_, _, rfl, fun R σ => not_not.symm⟩
  · exact ⟨_, _, rfl, fun R σ => Iff.rfl⟩
  · next hfalse htrue =>
    refine ⟨_, _, rfl, fun R σ => ?_⟩
    unfold Runtime.Matches
    split
    · exact absurd rfl htrue
    · exact absurd rfl hfalse
    · exact Iff.rfl

/-- The branch for what matches goes to its target where the value matches, whether it is decided before
or not. -/
theorem branchIf_cases (hi : Instr.branchIf? value test target = some i) :
    (i = .nop ∧ ∀ {V : Type} (R : Runtime V) (σ : Variable → V), ¬ R.Matches σ value test) ∨
    (i = .jump target ∧ ∀ {V : Type} (R : Runtime V) (σ : Variable → V), R.Matches σ value test) ∨
    ∃ op, i = .branch op target value none ∧ ∀ {V : Type} (R : Runtime V) (σ : Variable → V),
      R.Takes σ op value none ↔ R.Matches σ value test := by
  unfold Instr.branchIf? at hi
  split at hi
  · split at hi
    · next h => exact .inr (.inl ⟨(Option.some.inj hi).symm, fun R σ => R.truthy_read h⟩)
    · split at hi
      · next h => exact .inl ⟨(Option.some.inj hi).symm, fun R σ => R.not_truthy_read h⟩
      · exact .inr (.inr ⟨_, (Option.some.inj hi).symm, fun R σ => Iff.rfl⟩)
  · split at hi
    · next h => exact .inl ⟨(Option.some.inj hi).symm, fun R σ hnot => hnot (R.truthy_read h)⟩
    · split at hi
      · next h => exact .inr (.inl ⟨(Option.some.inj hi).symm, fun R σ => R.not_truthy_read h⟩)
      · exact .inr (.inr ⟨_, (Option.some.inj hi).symm, fun R σ => Iff.rfl⟩)
  · split at hi
    · next h =>
      subst h
      exact .inr (.inl ⟨(Option.some.inj hi).symm, fun R σ => rfl⟩)
    · split at hi
      · next h =>
        refine .inl ⟨(Option.some.inj hi).symm, fun {V} R σ hmatches => ?_⟩
        have hvalue : value.read R.toDomain σ = R.const .nil := hmatches
        have htruthy : R.truthy (value.read R.toDomain σ) := R.truthy_read h
        exact R.not_truthy_of_isFalsey rfl (hvalue ▸ htruthy)
      · exact .inr (.inr ⟨_, (Option.some.inj hi).symm, fun R σ => Iff.rfl⟩)
  · split at hi
    · next h =>
      subst h
      exact .inr (.inl ⟨(Option.some.inj hi).symm, fun R σ => rfl⟩)
    · exact .inr (.inr ⟨_, (Option.some.inj hi).symm, fun R σ => Iff.rfl⟩)
  · cases hi

/-- A branch for what matches can be built against these four only. -/
theorem isSome_branchIf : (Instr.branchIf? value test target).isSome ↔
    test ∈ [.boolean true, .boolean false, .nil, .undefined] := by
  unfold Instr.branchIf?
  split
  iterate 4
    · simp only [List.mem_cons, true_or, or_true, iff_true]
      split_ifs <;> rfl
  · simp_all only [imp_false, Option.isSome_none, Bool.false_eq_true, List.mem_cons, List.not_mem_nil,
      or_self]

end Tests

section Going

variable {V : Type} {R : Runtime V} {prog xs : List Instr} {x y : Stretch} {n m : Nat}
  {σ : Variable → V} {z : Next V} {w : List Nat} {o : Progress V} {i : Instr} {l : Label}
  {op : BranchOp} {value : Operand} {test : Option Operand}

/-- A label stands at one index. -/
theorem WellPlaced.index_eq (h : WellPlaced prog) (hn : prog[n]? = some (.label l))
    (hm : prog[m]? = some (.label l)) : m = n := by
  have hlt : ∀ {n m : Nat}, prog[n]? = some (.label l) → prog[m]? = some (.label l) → ¬ n < m := by
    intro n m hn hm hnm
    have hfront : .label l ∈ prog.take m :=
      List.mem_of_getElem? (i := n) ((List.getElem?_take_of_lt hnm).trans hn)
    have hback : .label l ∈ prog.drop m := by
      refine List.mem_of_getElem? (i := 0) ?_
      rw [List.getElem?_drop, Nat.add_zero, hm]
    have hone := h.atMostOnce l
    rw [← List.take_append_drop m prog, List.count_append] at hone
    have := List.count_pos_iff.mpr hfront
    have := List.count_pos_iff.mpr hback
    omega
  have := hlt hn hm
  have := hlt hm hn
  omega

theorem deeds_eq_nil (hn : prog[n]? = some i) (hi : i.isDeed = false) : deeds prog n = [] := by
  rw [deeds, hn, Option.any_some, hi]
  rfl

namespace Stretch

theorem Holds.le {lo hi : Nat} (h : Holds ⟨lo, hi⟩ prog xs) : lo ≤ hi := by
  obtain ⟨ys, -, hhi, -⟩ := h
  exact (Nat.le_add_right lo ys.length).trans hhi.ge

/-- What stands after one another stands in stretches after one another. -/
theorem Holds.split {lo hi : Nat} {ys : List Instr} (h : Holds ⟨lo, hi⟩ prog (xs ++ ys)) :
    ∃ m, Holds ⟨lo, m⟩ prog xs ∧ Holds ⟨m, hi⟩ prog ys := by
  obtain ⟨zs, hzs, hhi, hsame⟩ := h
  rw [withoutLines_append] at hsame
  obtain ⟨zs₁, zs₂, rfl, hxs, hys⟩ := List.filter_eq_append_iff.mp hsame
  obtain ⟨h₁, h₂⟩ := standsAt_append_iff.mp hzs
  refine ⟨lo + zs₁.length, ⟨zs₁, h₁, rfl, hxs⟩, zs₂, h₂, ?_, hys⟩
  rw [hhi, List.length_append, Nat.add_assoc]

theorem Holds.split_cons {lo hi : Nat} (h : Holds ⟨lo, hi⟩ prog (i :: xs)) :
    ∃ m, Holds ⟨lo, m⟩ prog [i] ∧ Holds ⟨m, hi⟩ prog xs := by
  rw [← List.singleton_append] at h
  exact h.split

end Stretch

namespace Runtime

/-- What does nothing only moves control. -/
theorem step_cases (hn : prog[n]? = some i) (hi : i.isDeed = false) (h : R.Step prog n σ z) :
    (i.isIdle ∧ z = .past σ) ∨ (∃ l, i = .jump l ∧ z = .sent l σ) ∨
      ∃ op l value test, i = .branch op l value test ∧
        ((R.Takes σ op value test ∧ z = .sent l σ) ∨ (¬ R.Takes σ op value test ∧ z = .past σ)) := by
  cases h with
  | idles hn' hidle =>
    cases hn.symm.trans hn'
    exact .inl ⟨hidle, rfl⟩
  | jumps hn' =>
    cases hn.symm.trans hn'
    exact .inr (.inl ⟨_, rfl, rfl⟩)
  | takes hn' htakes =>
    cases hn.symm.trans hn'
    exact .inr (.inr ⟨_, _, _, _, rfl, .inl ⟨htakes, rfl⟩⟩)
  | declines hn' hdeclines =>
    cases hn.symm.trans hn'
    exact .inr (.inr ⟨_, _, _, _, rfl, .inr ⟨hdeclines, rfl⟩⟩)
  | does hn' hdeed | raises hn' hdeed =>
    cases hn.symm.trans hn'
    cases hi.symm.trans hdeed
  | leaves hn' heffect =>
    cases hn.symm.trans hn'
    cases hi.symm.trans (Instr.isDeed_of_leaves heffect)

theorem step_idle (hn : prog[n]? = some i) (hi : i.isIdle) : R.Step prog n σ z ↔ z = .past σ := by
  refine ⟨fun h => ?_, fun hz => hz ▸ .idles hn hi⟩
  obtain ⟨-, hz⟩ | ⟨l, rfl, -⟩ | ⟨op, l, value, test, rfl, -⟩ :=
    step_cases hn (Instr.isDeed_of_isIdle hi) h
  · exact hz
  · cases hi
  · cases hi

theorem step_jump (hn : prog[n]? = some (.jump l)) : R.Step prog n σ z ↔ z = .sent l σ := by
  refine ⟨fun h => ?_, fun hz => hz ▸ .jumps hn⟩
  obtain ⟨hidle, -⟩ | ⟨l', he, hz⟩ | ⟨op, l', value, test, he, -⟩ := step_cases hn rfl h
  · cases hidle
  · cases he
    exact hz
  · cases he

theorem step_branch (hn : prog[n]? = some (.branch op l value test)) (h : R.Step prog n σ z) :
    (R.Takes σ op value test ∧ z = .sent l σ) ∨ (¬ R.Takes σ op value test ∧ z = .past σ) := by
  obtain ⟨hidle, -⟩ | ⟨l', he, -⟩ | ⟨op, l', value, test, he, hz⟩ := step_cases hn rfl h
  · cases hidle
  · cases he
  · cases he
    exact hz

theorem step_taken (hn : prog[n]? = some (.branch op l value test)) (h : R.Takes σ op value test) :
    R.Step prog n σ z ↔ z = .sent l σ := by
  refine ⟨fun hstep => ?_, fun hz => hz ▸ .takes hn h⟩
  exact (step_branch hn hstep).elim And.right fun hnot => absurd h hnot.1

theorem step_declined (hn : prog[n]? = some (.branch op l value test))
    (h : ¬ R.Takes σ op value test) : R.Step prog n σ z ↔ z = .past σ := by
  refine ⟨fun hstep => ?_, fun hz => hz ▸ .declines hn h⟩
  exact (step_branch hn hstep).elim (fun htakes => absurd htakes.1 h) And.right

/-- An instruction that only lets control pass makes no difference. -/
theorem goes_past_iff (hstep : ∀ z, R.Step prog n σ z ↔ z = .past σ) (hdeeds : deeds prog n = [])
    (hlo : x.lo ≤ n) (hhi : n < x.hi) : R.Goes prog x n σ w o ↔ R.Goes prog x (n + 1) σ w o := by
  constructor
  · intro h
    cases h with
    | rest => exact .rest (hlo.trans (Nat.le_succ n)) hhi
    | through => exact absurd hhi (Nat.lt_irrefl _)
    | past _ _ h hgoes =>
      cases (hstep _).mp h
      rwa [hdeeds]
    | within _ _ h | out _ _ h | stop _ _ h => cases (hstep _).mp h
  · intro h
    have hpast := Goes.past hlo hhi ((hstep _).mpr rfl) h
    rwa [hdeeds] at hpast

/-- Neither does one that sends control to a label of the stretch. -/
theorem goes_sent_iff (hprog : WellPlaced prog) (hstep : ∀ z, R.Step prog n σ z ↔ z = .sent l σ)
    (hdeeds : deeds prog n = []) (hlo : x.lo ≤ n) (hhi : n < x.hi) (hm : prog[m]? = some (.label l))
    (hmlo : x.lo ≤ m) (hmhi : m < x.hi) : R.Goes prog x n σ w o ↔ R.Goes prog x m σ w o := by
  constructor
  · intro h
    cases h with
    | rest => exact .rest hmlo hmhi.le
    | through => exact absurd hhi (Nat.lt_irrefl _)
    | within _ _ h _ _ hk hgoes =>
      cases (hstep _).mp h
      rw [hprog.index_eq hm hk] at hgoes
      rwa [hdeeds]
    | out _ _ h hout =>
      cases (hstep _).mp h
      exact absurd hm (hout m hmlo hmhi)
    | past _ _ h | stop _ _ h => cases (hstep _).mp h
  · intro h
    have hsent := Goes.within hlo hhi ((hstep _).mpr rfl) hmlo hmhi hm h
    rwa [hdeeds] at hsent

theorem goes_out_iff (hstep : ∀ z, R.Step prog n σ z ↔ z = .sent l σ) (hdeeds : deeds prog n = [])
    (hlo : x.lo ≤ n) (hhi : n < x.hi)
    (hout : x.Lacks prog l) : R.Goes prog x n σ w o ↔ w = [] ∧ (o = .going σ ∨ o = .sent l σ) := by
  constructor
  · intro h
    cases h with
    | rest => exact ⟨rfl, .inl rfl⟩
    | through => exact absurd hhi (Nat.lt_irrefl _)
    | within _ _ h hmlo hmhi hm =>
      cases (hstep _).mp h
      exact absurd hm (hout _ hmlo hmhi)
    | out _ _ h =>
      cases (hstep _).mp h
      exact ⟨hdeeds, .inr rfl⟩
    | past _ _ h | stop _ _ h => cases (hstep _).mp h
  · rintro ⟨rfl, rfl | rfl⟩
    · exact .rest hlo hhi.le
    · have hsent := Goes.out hlo hhi ((hstep _).mpr rfl) hout
      rwa [hdeeds] at hsent

theorem isOver_hi (hx : x.lo ≤ x.hi) : R.IsOver prog x x.hi := by
  intro σ w o
  constructor
  · intro h
    cases h with
    | rest => exact ⟨rfl, .inl rfl⟩
    | through => exact ⟨rfl, .inr rfl⟩
    | past _ hlt | within _ hlt | out _ hlt | stop _ hlt => exact absurd hlt (Nat.lt_irrefl _)
  · rintro ⟨rfl, rfl | rfl⟩
    · exact .rest hx le_rfl
    · exact .through

theorem goes_idle_iff (hxs : StandsAt prog n xs) (hidle : ∀ i ∈ xs, i.isIdle) (hlo : x.lo ≤ n)
    (hhi : n + xs.length ≤ x.hi) :
    R.Goes prog x n σ w o ↔ R.Goes prog x (n + xs.length) σ w o := by
  induction xs generalizing n with
  | nil => exact Iff.rfl
  | cons i xs ih =>
    obtain ⟨hi, hidle⟩ := List.forall_mem_cons.mp hidle
    obtain ⟨hn, hxs⟩ := standsAt_cons_iff.mp hxs
    rw [List.length_cons, Nat.add_comm xs.length 1, ← Nat.add_assoc] at hhi ⊢
    have hdeeds := deeds_eq_nil hn (Instr.isDeed_of_isIdle hi)
    rw [goes_past_iff (fun _ => step_idle hn hi) hdeeds hlo (by omega)]
    exact ih hxs hidle (by omega) hhi

/-- Where one instruction stands among lines, control comes to it and goes on behind it. -/
theorem exists_sole {lo hi : Nat} (h : Stretch.Holds ⟨lo, hi⟩ prog [i]) (hline : i.isLine = false) :
    ∃ m, lo ≤ m ∧ m < hi ∧ prog[m]? = some i ∧ ∀ {V : Type} {R : Runtime V} {x : Stretch}
      {σ : Variable → V} {w : List Nat} {o : Progress V}, x.lo ≤ lo → hi ≤ x.hi →
        (R.Goes prog x lo σ w o ↔ R.Goes prog x m σ w o) ∧
          (R.Goes prog x (m + 1) σ w o ↔ R.Goes prog x hi σ w o) := by
  have hlines : ∀ {ys : List Instr}, (∀ i ∈ ys, ¬ (!i.isLine) = true) → ∀ i ∈ ys, i.isIdle := by
    intro ys hys i hi
    have hnot := hys i hi
    cases i <;> first | rfl | exact absurd rfl hnot
  obtain ⟨xs, hxs, hlast, hsame⟩ := h
  obtain rfl : hi = lo + xs.length := hlast
  have hone : withoutLines [i] = [i] := List.filter_cons_of_pos (by rw [hline]; rfl)
  obtain ⟨ys, zs, rfl, hys, -, hzs⟩ := List.filter_eq_cons_iff.mp (hsame.trans hone)
  obtain ⟨hfront, hrest⟩ := standsAt_append_iff.mp hxs
  obtain ⟨hi, hback⟩ := standsAt_cons_iff.mp hrest
  have hlength : lo + (ys ++ i :: zs).length = lo + ys.length + 1 + zs.length := by
    rw [List.length_append, List.length_cons]
    omega
  refine ⟨lo + ys.length, Nat.le_add_right _ _, by omega, hi, fun hlo hhi => ⟨?_, ?_⟩⟩
  · exact goes_idle_iff hfront (hlines hys) hlo (by omega)
  · rw [hlength]
    exact goes_idle_iff hback (hlines (List.filter_eq_nil_iff.mp hzs)) (by omega) (by omega)

/-- A stretch that control leaves only through its end or for good does what the stretch inside does,
if nothing more is done behind the one inside. -/
theorem goes_iff_of_inside (hprog : WellPlaced prog) (hlo : x.lo ≤ y.lo) (hhi : y.hi ≤ x.hi)
    (hinside : ∀ {n σ l τ}, y.lo ≤ n → n < y.hi → R.Step prog n σ (.sent l τ) →
      (∃ m, y.lo ≤ m ∧ m < y.hi ∧ prog[m]? = some (.label l)) ∨ x.Lacks prog l)
    (hend : R.IsOver prog x y.hi)
    (hn : y.lo ≤ n) (hn' : n ≤ y.hi) : R.Goes prog x n σ w o ↔ R.Goes prog y n σ w o := by
  constructor
  · intro h
    have hbehind : ∀ {σ w o}, R.Goes prog x y.hi σ w o → R.Goes prog y y.hi σ w o :=
      fun h => (isOver_hi (hn.trans hn') _ _ _).mpr ((hend _ _ _).mp h)
    induction h with
    | rest => exact .rest hn hn'
    | through =>
      have hsame : x.hi = y.hi := Nat.le_antisymm hn' hhi
      exact hsame ▸ hbehind (hsame ▸ .through)
    | @past n σ τ w o h₁ h₂ hstep hgoes ih =>
      rcases hn'.lt_or_eq with hlt | rfl
      · exact .past hn hlt hstep (ih (hn.trans (Nat.le_succ n)) hlt)
      · exact hbehind (.past h₁ h₂ hstep hgoes)
    | @within n m l σ τ w o h₁ h₂ hstep h₃ h₄ hm hgoes ih =>
      rcases hn'.lt_or_eq with hlt | rfl
      · rcases hinside hn hlt hstep with ⟨k, hk, hk', hlabel⟩ | hout
        · obtain rfl := hprog.index_eq hlabel hm
          exact .within hn hlt hstep hk hk' hm (ih hk hk'.le)
        · exact absurd hm (hout m h₃ h₄)
      · exact hbehind (.within h₁ h₂ hstep h₃ h₄ hm hgoes)
    | @out n l σ τ h₁ h₂ hstep hout =>
      rcases hn'.lt_or_eq with hlt | rfl
      · exact .out hn hlt hstep fun m hm hm' => hout m (hlo.trans hm) (hm'.trans_le hhi)
      · exact hbehind (.out h₁ h₂ hstep hout)
    | @stop n e σ τ h₁ h₂ hstep =>
      rcases hn'.lt_or_eq with hlt | rfl
      · exact .stop hn hlt hstep
      · exact hbehind (.stop h₁ h₂ hstep)
  · intro h
    induction h with
    | rest => exact .rest (hlo.trans hn) (hn'.trans hhi)
    | through => exact (hend _ _ _).mpr ⟨rfl, .inr rfl⟩
    | past h₁ h₂ hstep _ ih =>
      exact .past (hlo.trans h₁) (h₂.trans_le hhi) hstep (ih (h₁.trans (Nat.le_succ _)) h₂)
    | within h₁ h₂ hstep h₃ h₄ hm _ ih =>
      exact .within (hlo.trans h₁) (h₂.trans_le hhi) hstep (hlo.trans h₃) (h₄.trans_le hhi) hm
        (ih h₃ h₄.le)
    | @out n l σ τ h₁ h₂ hstep hout =>
      rcases hinside h₁ h₂ hstep with ⟨m, hm, hm', hlabel⟩ | hout'
      · exact absurd hlabel (hout m hm hm')
      · exact .out (hlo.trans h₁) (h₂.trans_le hhi) hstep hout'
    | stop h₁ h₂ hstep => exact .stop (hlo.trans h₁) (h₂.trans_le hhi) hstep

end Runtime

end Going

end ScopeIR
