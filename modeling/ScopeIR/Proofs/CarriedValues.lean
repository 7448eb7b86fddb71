import ScopeIR.Proofs.Departures

/-! The value that an exit carries out. A return saves it before the ensure bodies are copied, while
break and next read it after them, so that a body may have changed it. -/

namespace ScopeIR

mutual

/-- The variables that stand in the operand. -/
def Operand.vars : Operand → List Variable
  | .atom (.var v) => [v]
  | .atom _ => []
  | .hash pairs => varsOfPairs pairs
  | .splat array => array.vars

def Operand.varsOfPairs : List (Operand × Operand) → List Variable
  | [] => []
  | (k, v) :: rest => k.vars ++ v.vars ++ varsOfPairs rest

end

/-- How values come from constants and from their parts. -/
structure Domain (V : Type) where
  const : Atom → V
  hash : List (V × V) → V
  splat : V → V

variable {V : Type} {D : Domain V} {σ τ μ : Variable → V}

namespace Operand

mutual

/-- The operand's value where the variables have these values. -/
def read (D : Domain V) (σ : Variable → V) : Operand → V
  | .atom (.var v) => σ v
  | .atom a => D.const a
  | .hash pairs => D.hash (readPairs D σ pairs)
  | .splat array => D.splat (read D σ array)

def readPairs (D : Domain V) (σ : Variable → V) : List (Operand × Operand) → List (V × V)
  | [] => []
  | (k, v) :: rest => (read D σ k, read D σ v) :: readPairs D σ rest

end

mutual

theorem read_congr : ∀ o : Operand, (∀ v ∈ o.vars, σ v = τ v) → o.read D σ = o.read D τ
  | .atom a, h => by
    cases a with
    | var v => exact h v (List.mem_singleton_self v)
    | _ => rfl
  | .hash pairs, h => congrArg D.hash (readPairs_congr pairs h)
  | .splat array, h => congrArg D.splat (read_congr array h)

theorem readPairs_congr : ∀ pairs : List (Operand × Operand),
    (∀ v ∈ varsOfPairs pairs, σ v = τ v) → readPairs D σ pairs = readPairs D τ pairs
  | [], _ => rfl
  | (k, v) :: rest, h => by
    simp only [varsOfPairs, List.mem_append] at h
    simp only [readPairs, read_congr k fun w hw => h w (.inl (.inl hw)),
      read_congr v fun w hw => h w (.inl (.inr hw)), readPairs_congr rest fun w hw => h w (.inr hw)]

end

end Operand

/-- What the instruction does to variables: it writes no other than its result, and a copy writes
the value it is given. -/
structure Instr.Does (D : Domain V) (i : Instr) (σ τ : Variable → V) : Prop where
  others : ∀ v, i.result? ≠ some v → τ v = σ v
  copies : ∀ r o, i = .copy r o → τ r = o.read D σ

theorem Instr.Does.eq_of_none {i : Instr} (h : i.Does D σ τ) (hi : i.result? = none) : τ = σ :=
  funext fun v => h.others v (by rw [hi]; nofun)

/-- The instructions one after another. -/
inductive Executes (D : Domain V) : (Variable → V) → List Instr → (Variable → V) → Prop
  | nil {σ : Variable → V} : Executes D σ [] σ
  | cons {σ μ τ : Variable → V} {i : Instr} {xs : List Instr} :
    i.Does D σ μ → Executes D μ xs τ → Executes D σ (i :: xs) τ

namespace Executes

variable {xs ys : List Instr} {i : Instr}

theorem append_iff : Executes D σ (xs ++ ys) τ ↔ ∃ μ, Executes D σ xs μ ∧ Executes D μ ys τ := by
  induction xs generalizing σ with
  | nil =>
    constructor
    · exact fun h => ⟨σ, .nil, h⟩
    · rintro ⟨μ, ⟨⟩, h⟩
      exact h
  | cons i xs ih =>
    constructor
    · rintro (_ | ⟨hi, h⟩)
      obtain ⟨μ, hxs, hys⟩ := ih.mp h
      exact ⟨μ, .cons hi hxs, hys⟩
    · rintro ⟨μ, _ | ⟨hi, hxs⟩, hys⟩
      exact .cons hi (ih.mpr ⟨μ, hxs, hys⟩)

/-- What is nobody's result keeps its value. -/
theorem frame {v : Variable} (h : Executes D σ xs τ) (hv : ∀ i ∈ xs, i.result? ≠ some v) :
    τ v = σ v := by
  induction h with
  | nil => rfl
  | cons hi _ ih =>
    rw [ih fun j hj => hv j (List.mem_cons_of_mem _ hj), hi.others v (hv _ List.mem_cons_self)]

theorem result?_of_isLine (hi : i.isLine) : i.result? = none := by cases i <;> first | rfl | cases hi

/-- Lines write nothing. -/
theorem withoutLines_iff : Executes D σ (withoutLines xs) τ ↔ Executes D σ xs τ := by
  induction xs generalizing σ with
  | nil => exact Iff.rfl
  | cons i xs ih =>
    cases hi : i.isLine with
    | false =>
      have hcons : withoutLines (i :: xs) = i :: withoutLines xs := by
        rw [withoutLines, List.filter_cons_of_pos (by rw [hi]; rfl), withoutLines]
      rw [hcons]
      constructor
      · rintro (_ | ⟨hdoes, h⟩)
        exact .cons hdoes (ih.mp h)
      · rintro (_ | ⟨hdoes, h⟩)
        exact .cons hdoes (ih.mpr h)
    | true =>
      have hcons : withoutLines (i :: xs) = withoutLines xs := by
        rw [withoutLines, List.filter_cons_of_neg (by rw [hi]; decide), withoutLines]
      rw [hcons, ih]
      constructor
      · refine fun h => .cons ⟨fun _ _ => rfl, ?_⟩ h
        rintro r o rfl
        cases hi
      · rintro (_ | ⟨hdoes, h⟩)
        exact hdoes.eq_of_none (result?_of_isLine hi) ▸ h

end Executes

theorem Instr.result?_rename (ρ : Renaming) (i : Instr) :
    (i.rename ρ).result? = i.result?.map ρ.var := by cases i <;> rfl

/-- A renamed body writes temporaries of its own, and named variables that the body writes. -/
theorem Renaming.Freshens.result?_rename {ρ : Renaming} {first : Label} {xs : List Instr}
    {s t : Session} (hρ : ρ.Freshens first xs s t) {i : Instr} (hi : i ∈ xs) {v : Variable}
    (hv : (i.rename ρ).result? = some v) :
    v.isTemp ∧ s.temps ≤ v.index ∨ v.isTemp = false ∧ ∃ j ∈ xs, j.result? = some v := by
  rw [Instr.result?_rename] at hv
  obtain ⟨w, hw, rfl⟩ := Option.map_eq_some_iff.mp hv
  cases htemp : w.isTemp with
  | true =>
    obtain ⟨himage, hge, -⟩ := hρ.var_new w ((hρ.hasVar_iff w).mpr ⟨htemp, i, hi, hw⟩)
    exact .inl ⟨himage, hge⟩
  | false =>
    have hkept : ρ.var w = w := by
      refine var_of_not_hasVar (Bool.eq_false_iff.mpr fun hhas => ?_)
      rw [((hρ.hasVar_iff w).mp hhas).1] at htemp
      cases htemp
    rw [hkept]
    exact .inr ⟨htemp, i, hi, hw⟩

namespace Session

variable {s t : Session} {frame : EnsureFrame} {frames : List EnsureFrame} {xs : List Instr}
  {i : Instr} {v : Variable}

theorem Copies.writes (h : Copies frame s t xs) (hi : i ∈ xs) (hv : i.result? = some v) :
    v.isTemp ∧ s.temps ≤ v.index ∨ v.isTemp = false ∧ ∃ j ∈ frame.instrs, j.result? = some v := by
  cases h with
  | empty => cases hi
  | @full ρ u hρ _ =>
    simp only [EnsureFrame.copy, List.cons_append, List.mem_cons, List.mem_append, List.mem_map,
      List.not_mem_nil, or_false] at hi
    -- what encloses the renamed body writes nothing
    rcases hi with rfl | rfl | ⟨j, hj, rfl⟩ | rfl
    · cases hv
    · cases hv
    · exact hρ.result?_rename hj hv
    · cases hv

theorem CopiesAll.writes (h : CopiesAll frames s t xs) (hi : i ∈ xs) (hv : i.result? = some v) :
    v.isTemp ∧ s.temps ≤ v.index ∨
      v.isTemp = false ∧ ∃ f ∈ frames, ∃ j ∈ f.instrs, j.result? = some v := by
  induction h with
  | nil => cases hi
  | cons hcopy _ ih =>
    rcases List.mem_append.mp hi with hi | hi
    · exact (hcopy.writes hi hv).imp_right fun ⟨htemp, hj⟩ => ⟨htemp, _, List.mem_cons_self, hj⟩
    · rcases ih hi with ⟨htemp, hge⟩ | ⟨htemp, f, hf, hj⟩
      · exact .inl ⟨htemp, hcopy.emits.temps_le.trans hge⟩
      · exact .inr ⟨htemp, f, List.mem_cons_of_mem _ hf, hj⟩

end Session

namespace Departure

def value : Departure → Operand
  | .break value | next value | .return value => value

/-- The value is saved before the bodies are copied. -/
def saves : Departure → Bool
  | .return _ => true
  | _ => false

/-- It jumps and takes the value along: a next does outside of loops. -/
def Carries (s : Session) (d : Departure) : Prop :=
  d.Jumps s (s.builder.currentLoop ≠ none) ∧ ∀ value, d = next value → s.builder.currentLoop = none

/-- None of the bodies that are passed can write a variable of the value. -/
def Apart (s : Session) (d : Departure) : Prop :=
  ∀ v ∈ d.value.vars, if v.isTemp then v.index < s.temps
    else ∀ f ∈ d.passed s.builder, ∀ i ∈ f.instrs, i.result? ≠ some v

/-- What the code after the copies carries out: it stores it in the result of a loop or returns
it. -/
def carried (D : Domain V) (τ : Variable → V) : List Instr → Option V
  | [.copy result _, .jump _] => some (τ result)
  | [.threadPoll, .ret value] | [.ret value] => some (value.read D τ)
  | _ => none

section Carried

variable {s t u v : Session} {d : Departure} {before cs after zs : List Instr}

/-- Bodies that cannot write a variable of the value leave it as it was. -/
theorem read_eq_of_apart (hd : d.passed s.builder = [] ∨ d.Apart s) (hu : s.temps ≤ u.temps)
    (hcs : Session.CopiesAll (d.passed s.builder) u v cs) (hzs : zs ⊆ cs)
    (h : Executes D σ zs μ) : d.value.read D μ = d.value.read D σ := by
  refine Operand.read_congr _ fun w hw => h.frame fun i hi hresult => ?_
  rcases hd with hnil | hd
  · rw [hnil] at hcs
    cases hcs
    exact absurd (hzs hi) List.not_mem_nil
  have hapart := hd w hw
  rcases hcs.writes (hzs hi) hresult with ⟨htemp, hge⟩ | ⟨htemp, f, hf, j, hj, hjw⟩
  · rw [if_pos htemp] at hapart
    omega
  · rw [if_neg (by rw [htemp]; decide)] at hapart
    exact hapart f hf j hj hjw

/-- The temporary that holds the value is older than all that the copies write. -/
theorem saved_eq {frames : List EnsureFrame} {r : Variable} (htemp : r.isTemp)
    (hlt : r.index < u.temps) (hcs : Session.CopiesAll frames u v cs) (hzs : zs ⊆ cs)
    (h : Executes D σ zs μ) : μ r = σ r := by
  refine h.frame fun i hi hresult => ?_
  rcases hcs.writes (hzs hi) hresult with ⟨-, hge⟩ | ⟨hnot, -⟩
  · omega
  · rw [htemp] at hnot
    cases hnot

/-- A return carries out the value that its operand had when it began. Break and next carry out the
value that it has after the copied bodies, which is the same if no body can write its variables. -/
theorem carried_of_departs (hd : d.Carries s) (h : s.Departs t d before cs after) (hzs : zs ⊆ cs)
    (hexec : Executes D σ (before ++ zs ++ after) τ) :
    (∃ μ, Executes D σ (before ++ zs) μ ∧
      (d.saves = false → carried D τ after = some (d.value.read D μ))) ∧
    (d.saves ∨ d.Apart s → carried D τ after = some (d.value.read D σ)) := by
  obtain ⟨haround, hbefore, hcs, -⟩ := h
  obtain ⟨μ, hfront, hafter⟩ := Executes.append_iff.mp hexec
  cases haround with
  | @loop value frame hloop =>
    rcases hafter with _ | ⟨hcopy, _ | ⟨hjump, ⟨⟩⟩⟩
    obtain rfl := hjump.eq_of_none rfl
    have hread : τ frame.result = value.read D μ := hcopy.copies _ _ rfl
    refine ⟨⟨μ, hfront, fun _ => congrArg some hread⟩, fun hd => congrArg some (hread.trans ?_)⟩
    exact read_eq_of_apart (.inr (hd.resolve_left nofun)) hbefore.temps_le hcs hzs hfront
  | iteration hloop => cases hloop.symm.trans (hd.2 _ rfl)
  | block hloop =>
    rcases hafter with _ | ⟨hpoll, _ | ⟨hret, ⟨⟩⟩⟩
    obtain rfl := hret.eq_of_none rfl
    obtain rfl := hpoll.eq_of_none rfl
    refine ⟨⟨_, hfront, fun _ => rfl⟩, fun hd => congrArg some ?_⟩
    exact read_eq_of_apart (.inr (hd.resolve_left nofun)) hbefore.temps_le hcs hzs hfront
  | bare hnil =>
    rcases hafter with _ | ⟨hret, ⟨⟩⟩
    obtain rfl := hret.eq_of_none rfl
    refine ⟨⟨_, hfront, nofun⟩, fun _ => congrArg some ?_⟩
    exact read_eq_of_apart (d := .return _) (.inl hnil) hbefore.temps_le hcs hzs hfront
  | saved htemp hge hlt =>
    obtain ⟨ν, hsave, hcopied⟩ := Executes.append_iff.mp hfront
    rcases hsave with _ | ⟨hcopy, ⟨⟩⟩
    rcases hafter with _ | ⟨hret, ⟨⟩⟩
    obtain rfl := hret.eq_of_none rfl
    refine ⟨⟨_, hfront, nofun⟩, fun _ => congrArg some ?_⟩
    exact (saved_eq htemp hlt hcs hzs hcopied).trans (hcopy.copies _ _ rfl)

end Carried

end Departure

section Whole

open Session

variable {s t : Session} {d : Departure} {v : Unit}

/-- However control moves in the copied bodies, and whatever lines are written in between, a return
carries out the value that its operand had when it began. Break and next read the operand after the
bodies and carry out that value, which is the one from before if no body writes its variables. -/
theorem carried_of_runs (hd : d.Carries s) (h : s.Runs d.run v t) :
    ∃ before cs after, s.Departs t d before cs after ∧
      ∀ zs ⊆ cs, ∀ ys, withoutLines ys = withoutLines (before ++ zs ++ after) →
        ∀ (σ τ : Variable → V), Executes D σ ys τ →
          (∃ μ, Executes D σ (before ++ zs) μ ∧
            (d.saves = false → Departure.carried D τ after = some (d.value.read D μ))) ∧
          (d.saves ∨ d.Apart s → Departure.carried D τ after = some (d.value.read D σ)) := by
  obtain ⟨before, cs, after, hdeparts⟩ := departs_of_runs hd.1 h
  refine ⟨before, cs, after, hdeparts, fun zs hzs ys hys σ τ hexec => ?_⟩
  refine Departure.carried_of_departs hd hdeparts hzs (Executes.withoutLines_iff.mp ?_)
  exact hys ▸ Executes.withoutLines_iff.mpr hexec

/-- A variable of the scope itself. -/
def Variable.ofName (name : String) : Variable := .named ⟨⟨name⟩, 0, 0⟩

/-- The cleanup assigns the variable that the break names. -/
def Code.breakOverAssignment : Code :=
  .loop .done (.boolean true)
    (.ensure (.seq .mark (.break (.var (.ofName "x")))) .nil
      (.emit ⟨.copy (.ofName "x") (.boolean false), rfl⟩) .nil) true true

theorem carried_of_runs_breakOverAssignment : ∃ t k,
    TrailM.Runs (Code.breakOverAssignment.build ⟨.method, []⟩) (single .method) ⟨[], []⟩ () t k ∧
    ∃ p ∈ k.points, ∃ u, p.2.Runs (breakWith (.var (.ofName "x"))) () u ∧
      ¬ (Departure.break (.var (.ofName "x"))).Apart p.2 ∧ ∃ before cs after,
        p.2.Departs u (.break (.var (.ofName "x"))) before cs after ∧
        ∀ σ τ : Variable → Atom, Executes ⟨id, fun _ => .nil, id⟩ σ (before ++ cs ++ after) τ →
          ∃ μ, Executes ⟨id, fun _ => .nil, id⟩ σ (before ++ cs) μ ∧
            Departure.carried ⟨id, fun _ => .nil, id⟩ τ after = some (μ (.ofName "x")) := by
  have hbuild := TrailM.runs_of_ok (x := Code.breakOverAssignment.build ⟨.method, []⟩)
    (s := single .method) (h := ⟨[], []⟩) (a := ()) (by decide +kernel)
  have hpoint : ∃ p ∈ (Code.breakOverAssignment.build ⟨.method, []⟩ (single .method)
      ⟨[], []⟩).2.points, p.2.builder.currentLoop ≠ none ∧
      (breakWith (.var (.ofName "x")) p.2).1 = .ok () ∧
      ∃ f ∈ (Departure.break (.var (.ofName "x"))).passed p.2.builder,
        ∃ i ∈ f.instrs, i.result? = some (.ofName "x") := by decide +kernel
  obtain ⟨p, hp, hloop, hok, f, hf, i, hi, hresult⟩ := hpoint
  have hrun := Session.runs_of_ok hok
  obtain ⟨before, cs, after, hdeparts, hcarried⟩ := carried_of_runs (V := Atom)
    (D := ⟨id, fun _ => .nil, id⟩) (d := .break (.var (.ofName "x"))) ⟨hloop, nofun⟩ hrun
  refine ⟨_, _, hbuild, p, hp, _, hrun, fun hapart => ?_, before, cs, after, hdeparts, ?_⟩
  · exact hapart _ (List.mem_singleton_self _) f hf i hi hresult
  · intro σ τ hexec
    obtain ⟨⟨μ, hμ, hread⟩, -⟩ := hcarried cs (List.Subset.refl cs) _ rfl σ τ hexec
    exact ⟨μ, hμ, hread rfl⟩

end Whole

end ScopeIR
