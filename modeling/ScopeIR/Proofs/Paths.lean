import ScopeIR.Proofs.CarriedValues
import ScopeIR.Proofs.Conformance

/-! The instructions that are carried out on the way from one place of a list to another. Lines between
them make no difference. -/

namespace ScopeIR

namespace Machine

/-- The machine comes from the one to the other by carrying out the instructions. -/
inductive Treads (O : Oracle) (prog : List Instr) : Machine → List Instr → Machine → Prop
  | here {m : Machine} : Treads O prog m [] m
  | step {p : Nat} {past : Deeds} {i : Instr} {xs : List Instr} {m : Machine} : prog[p]? = some i →
    Treads O prog (step O prog (.at p past)) xs m → Treads O prog (.at p past) (i :: xs) m

variable {O : Oracle} {prog : List Instr} {m m' m'' : Machine} {xs ys : List Instr} {p q : Nat}
  {past past' : Deeds} {i : Instr}

theorem Treads.trans (h : m.Treads O prog xs m') (h' : m'.Treads O prog ys m'') :
    m.Treads O prog (xs ++ ys) m'' := by
  induction h with
  | here => exact h'
  | step hi _ ih => exact .step hi (ih h')

theorem Treads.single (hi : prog[p]? = some i) :
    (Machine.at p past).Treads O prog [i] (Machine.step O prog (.at p past)) := .step hi .here

/-- A list that was not run to its end was run instruction by instruction. -/
theorem Leads.exists_treads (h : m.Leads O prog (.at q past')) :
    ∃ xs, m.Treads O prog xs (.at q past') := by
  obtain ⟨n, h⟩ := h
  induction n generalizing m with
  | zero =>
    obtain rfl : m = .at q past' := h
    exact ⟨[], .here⟩
  | succ n ih =>
    cases m with
    | ended e past => cases exec_ended.symm.trans h
    | «at» p past =>
      cases hi : prog[p]? with
      | none =>
        have hstep : Machine.step O prog (.at p past) = .ended .fell past := by
          rw [Machine.step, hi]
          rfl
        rw [exec, hstep, exec_ended] at h
        cases h
      | some i =>
        obtain ⟨xs, hxs⟩ := ih h
        exact ⟨i :: xs, .step hi hxs⟩

/-- Over the lines at hand, to the instruction that stands there without them. -/
theorem exists_treads_lines (O : Oracle) (past : Deeds)
    (hi : (withoutLines prog)[(withoutLines (prog.take p)).length]? = some i) :
    ∃ q ls, (Machine.at p past).Treads O prog ls (.at q past) ∧ withoutLines ls = [] ∧
      prog[q]? = some i ∧ i.isLine = false ∧
      (Machine.at q past).compressed prog = (Machine.at p past).compressed prog := by
  -- on the number of instructions that follow
  induction hn : prog.length - p generalizing p with
  | zero =>
    rw [List.take_of_length_le (Nat.sub_eq_zero_iff_le.mp hn), List.getElem?_eq_none le_rfl] at hi
    cases hi
  | succ n ih =>
    have hlt : p < prog.length := by omega
    have hp := List.getElem?_eq_getElem hlt
    cases hline : prog[p].isLine with
    | false =>
      obtain rfl := Option.some.inj ((getElem?_withoutLines hp hline).symm.trans hi)
      exact ⟨p, [], .here, rfl, hp, hline, rfl⟩
    | true =>
      obtain ⟨hstep, hsame⟩ := step_line O past hp hline
      have hlength := (Machine.at.inj (compressed_at.symm.trans (hsame.trans compressed_at))).1
      obtain ⟨q, ls, htreads, hls, hq, hi', hcompressed⟩ := ih (hlength.symm ▸ hi) (by omega)
      refine ⟨q, prog[p] :: ls, .step hp (hstep ▸ htreads), ?_, hq, hi', hcompressed.trans hsame⟩
      rw [withoutLines, List.filter_cons_of_neg (by rw [hline]; decide)]
      exact hls

/-- What is carried out without lines is carried out with them. -/
theorem Treads.withLines (h : m'.Treads O (withoutLines prog) xs m'')
    (hm : m.compressed prog = m') : ∃ ys n, m.Treads O prog ys n ∧ n.compressed prog = m'' ∧
      withoutLines ys = xs := by
  induction h generalizing m with
  | here => exact ⟨[], m, .here, hm, rfl⟩
  | @step p past i xs m'' hi _ ih =>
    obtain ⟨p', rfl⟩ := exists_at_of_compressed hm
    obtain rfl := (Machine.at.inj (compressed_at.symm.trans hm)).1
    obtain ⟨q, ls, htreads, hls, hq, hline, hcompressed⟩ := exists_treads_lines O past hi
    have hstep : (Machine.step O prog (.at q past)).compressed prog = _ := compressed_step hq hline
    have hstep := hstep.trans (congrArg (Machine.step O _) (hcompressed.trans compressed_at))
    obtain ⟨ys, n, hys, hn, hsame⟩ := ih hstep
    refine ⟨ls ++ i :: ys, n, htreads.trans (.step hq hys), hn, ?_⟩
    have hcons : withoutLines (i :: ys) = i :: withoutLines ys := by
      rw [withoutLines, List.filter_cons_of_pos (by rw [hline]; rfl), withoutLines]
    rw [withoutLines_append, hls, hcons, hsame]
    rfl

end Machine

/-- However the instructions run, the variable gets the value that the operand has at first, unless one
of those that are carried out meanwhile writes a variable of the operand. -/
def Delivers (result : Variable) (value : Operand) (meanwhile after : List Instr) : Prop :=
  ∀ {V : Type} (D : Domain V) {σ τ : Variable → V}, Executes D σ (meanwhile ++ after) τ →
    (∀ v ∈ value.vars, ∀ i ∈ meanwhile, i.result? ≠ some v) → τ result = value.read D σ

section Delivering

variable {result : Variable} {value : Operand} {meanwhile after xs ys : List Instr}

theorem delivers_copy (hafter : ∀ i ∈ ys, i.result? ≠ some result) :
    Delivers result value xs (.copy result value :: ys) := by
  intro V D σ τ hexec hvars
  obtain ⟨μ, hxs, _ | ⟨hcopy, hys⟩⟩ := Executes.append_iff.mp hexec
  have hkept : value.read D μ = value.read D σ :=
    Operand.read_congr value fun v hv => hxs.frame (hvars v hv)
  rw [hys.frame hafter, hcopy.copies _ _ rfl, hkept]

/-- Lines write nothing. -/
theorem Delivers.withLines (h : Delivers result value (withoutLines xs) (withoutLines ys)) :
    Delivers result value xs ys := by
  intro V D σ τ hexec hvars
  refine h D ?_ fun v hv i hi => hvars v hv i (List.mem_of_mem_filter hi)
  rw [← withoutLines_append]
  exact Executes.withoutLines_iff.mpr hexec

end Delivering

end ScopeIR
