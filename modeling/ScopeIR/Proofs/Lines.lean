import ScopeIR.Proofs.Meaning

/-! Line numbers do nothing: a list does what it does without them, only in more steps. -/

namespace ScopeIR

/-- Without anything on behalf of lines. -/
def Unlined (xs : List Instr) : Prop := ∀ i ∈ xs, i.isLine = false

section Unlined

variable {xs ys : List Instr} {i : Instr}

theorem Unlined.nil : Unlined [] := fun _ hi => nomatch hi

@[simp] theorem unlined_cons : Unlined (i :: xs) ↔ i.isLine = false ∧ Unlined xs :=
  List.forall_mem_cons

@[simp] theorem unlined_append : Unlined (xs ++ ys) ↔ Unlined xs ∧ Unlined ys :=
  List.forall_mem_append

theorem Unlined.withoutLines_eq (h : Unlined xs) : withoutLines xs = xs := by
  refine List.filter_eq_self.mpr fun i hi => ?_
  rw [h i hi, Bool.not_false]

theorem Unlined.map_rename (h : Unlined xs) (ρ : Renaming) : Unlined (xs.map (·.rename ρ)) := by
  intro i hi
  obtain ⟨j, hj, rfl⟩ := List.mem_map.mp hi
  rw [← h j hj]
  cases j <;> rfl

theorem Unlined.of_isCopy {frame : EnsureFrame} {cs : List Instr} (h : Unlined frame.instrs)
    (hcs : IsCopy frame cs) : Unlined cs := by
  cases hcs with
  | empty _ => exact .nil
  | full _ _ =>
    simp only [EnsureFrame.copy, List.cons_append, unlined_cons, unlined_append]
    exact ⟨rfl, rfl, h.map_rename _, rfl, .nil⟩

theorem Unlined.of_areCopies {frames : List EnsureFrame} {cs : List Instr}
    (h : ∀ f ∈ frames, Unlined f.instrs) (hcs : AreCopies frames cs) : Unlined cs := by
  induction hcs with
  | nil => exact .nil
  | cons hcopy _ ih =>
    obtain ⟨hframe, hframes⟩ := List.forall_mem_cons.mp h
    exact unlined_append.mpr ⟨hframe.of_isCopy hcopy, ih hframes⟩

theorem Instr.isLine_of_isMove (h : i.isMove) : i.isLine = false := by
  cases i <;> first | rfl | cases h

end Unlined

/-- Orderly code is built without a word about lines. -/
theorem Laid.unlined_of_isOrderly {σ : Site} {c : Code} {xs : List Instr} (h : Laid σ c xs)
    (hc : c.IsOrderly) (hfit : σ.Fits c) (hσ : ∀ f ∈ σ.ensures, Unlined f.instrs) : Unlined xs := by
  have hpassed : ∀ {σ : Site} {loop : Option LoopId}, (∀ f ∈ σ.ensures, Unlined f.instrs) →
      ∀ f ∈ Session.passedEnsures loop σ.ensures, Unlined f.instrs :=
    fun hσ f hf => hσ f (mem_of_mem_passedEnsures hf)
  induction h with
  | done | mark | temp | note => exact .nil
  | emit => exact unlined_cons.mpr ⟨hc.2, .nil⟩
  | redoLoop | redoBlock | retry => exact hc.elim
  | move hmove => exact absurd hc (Code.not_isOrderly_of_isMove hmove)
  | seq _ _ ihFirst ihRest => exact unlined_append.mpr ⟨ihFirst hc.1 (Or.imp_right And.left hfit) hσ,
      ihRest hc.2 (Or.imp_right And.right hfit) hσ⟩
  | call | returnPlain => exact unlined_cons.mpr ⟨rfl, .nil⟩
  | ifElse _ _ ihYes ihNo =>
    simp only [List.cons_append, List.append_assoc, unlined_append, unlined_cons]
    exact ⟨Instr.isLine_of_isMove isMove_branchUnlessEqual, ihYes hc.1 (Or.imp_right And.left hfit) hσ,
      rfl, rfl, ihNo hc.2 (Or.imp_right And.right hfit) hσ, rfl, .nil⟩
  | loopFirst _ hi _ _ ihCondition ihBody =>
    simp only [List.cons_append, List.append_assoc, unlined_append, unlined_cons]
    exact ⟨rfl, ihCondition hc.1 (Or.imp_right And.left hfit) hσ,
      Instr.isLine_of_isMove (isMove_of_branchIf hi), rfl, rfl,
      ihBody hc.2 (Or.imp_right And.right hfit) hσ, rfl, rfl, rfl, rfl, rfl, .nil⟩
  | loopLast _ hi _ _ ihBody ihCondition =>
    simp only [List.cons_append, List.append_assoc, unlined_append, unlined_cons]
    exact ⟨rfl, rfl, rfl, ihBody hc.2 (Or.imp_right And.right hfit) hσ, rfl,
      ihCondition hc.1 (Or.imp_right And.left hfit) hσ,
      Instr.isLine_of_isMove (isMove_of_branchIf hi), rfl, rfl, rfl, .nil⟩
  | ensure _ _ _ _ hcopy ihCleanup ihBody =>
    have hcleanup := ihCleanup hc.2.1 (Or.imp_right And.right hfit) hσ
    have hbody := ihBody hc.1 (Or.imp_right And.left hfit) (List.forall_mem_cons.mpr ⟨hcleanup, hσ⟩)
    simp only [List.cons_append, List.append_assoc, unlined_append, unlined_cons]
    exact ⟨rfl, rfl, hbody, rfl, rfl, hcleanup.of_isCopy hcopy, rfl, rfl, rfl, rfl, hcleanup, rfl, rfl,
      .nil⟩
  | rescue _ _ ihBody ihHandler =>
    simp only [List.cons_append, List.append_assoc, unlined_append, unlined_cons]
    exact ⟨rfl, rfl, rfl, ihBody hc.1 (Or.imp_right And.left hfit) hσ, rfl, rfl, rfl, rfl, rfl,
      ihHandler hc.2 (Or.imp_right And.right hfit) hσ, rfl, rfl, .nil⟩
  | breakLoop _ hcopies =>
    exact unlined_append.mpr ⟨.of_areCopies (hpassed hσ) hcopies, unlined_cons.mpr
      ⟨rfl, unlined_cons.mpr ⟨rfl, .nil⟩⟩⟩
  | nextLoop _ hcopies =>
    exact unlined_append.mpr ⟨.of_areCopies (hpassed hσ) hcopies, unlined_cons.mpr ⟨rfl, .nil⟩⟩
  | returnCopies hcopies =>
    simp only [List.cons_append, unlined_append, unlined_cons]
    exact ⟨rfl, .of_areCopies hσ hcopies, rfl, .nil⟩
  | breakBlock hloops hclosure | nextBlock hloops hclosure =>
    exact absurd hfit (Site.not_fits_block hloops hclosure)
  | returnTransfer hmethod => exact hfit.elim (absurd · hmethod) False.elim

theorem Laid.unlined {σ : Site} {c : Code} {xs : List Instr} (h : Laid σ c xs) (hc : c.IsControl)
    (hkind : σ.kind = .method) (hσ : ∀ f ∈ σ.ensures, Unlined f.instrs) : Unlined xs :=
  h.unlined_of_isOrderly hc.isOrderly (.inl hkind) hσ

namespace Machine

/-- Where the machine is in the list without lines. -/
def compressed (prog : List Instr) : Machine → Machine
  | .at p past => .at (withoutLines (prog.take p)).length past
  | m => m

@[simp] theorem compressed_at {prog : List Instr} {p : Nat} {past : Deeds} :
    (Machine.at p past).compressed prog = .at (withoutLines (prog.take p)).length past := rfl

@[simp] theorem compressed_ended {prog : List Instr} {e : Ending} {past : Deeds} :
    (ended e past).compressed prog = .ended e past := rfl

theorem eq_ended_of_compressed {prog : List Instr} {m : Machine} {e : Ending} {past : Deeds}
    (h : m.compressed prog = .ended e past) : m = .ended e past := by
  cases m with
  | «at» => cases h
  | ended => exact h

theorem exists_at_of_compressed {prog : List Instr} {m : Machine} {q : Nat} {past : Deeds}
    (h : m.compressed prog = .at q past) : ∃ p, m = .at p past := by
  cases m with
  | «at» p past' =>
    cases h
    exact ⟨p, rfl⟩
  | ended => cases h

section Lines

variable {O : Oracle} {prog : List Instr} {p : Nat} {past : Deeds} {i : Instr} {l : Label}

theorem take_withoutLines :
    (withoutLines prog).take (withoutLines (prog.take p)).length = withoutLines (prog.take p) := by
  conv_lhs => rw [← List.take_append_drop p prog]
  rw [withoutLines_append, List.take_append_drop, List.take_left]

theorem withoutLines_take_succ (hi : prog[p]? = some i) :
    withoutLines (prog.take (p + 1)) = withoutLines (prog.take p) ++ withoutLines [i] := by
  rw [List.take_add_one, hi, withoutLines_append, Option.toList_some]

theorem getElem?_withoutLines (hi : prog[p]? = some i) (hline : i.isLine = false) :
    (withoutLines prog)[(withoutLines (prog.take p)).length]? = some i := by
  obtain ⟨hlt, hget⟩ := List.getElem?_eq_some_iff.mp hi
  have hdrop : withoutLines (prog.drop p) = i :: withoutLines (prog.drop (p + 1)) := by
    rw [List.drop_eq_getElem_cons hlt, hget]
    exact List.filter_cons_of_pos (by rw [hline]; rfl)
  have hsplit : withoutLines prog = withoutLines (prog.take p) ++ withoutLines (prog.drop p) := by
    rw [← withoutLines_append, List.take_append_drop]
  rw [hsplit, hdrop, List.getElem?_append_right le_rfl, Nat.sub_self, List.getElem?_cons_zero]

theorem rescuerAt_withoutLines :
    rescuerAt (withoutLines prog) (withoutLines (prog.take p)).length = rescuerAt prog p := by
  rw [rescuerAt, take_withoutLines, regions_withoutLines, rescuerAt]

theorem length_withoutLines_idxOf :
    (withoutLines (prog.take (prog.idxOf (.label l)))).length =
      (withoutLines prog).idxOf (.label l) := by
  induction prog with
  | nil => rfl
  | cons j prog ih =>
    by_cases hj : j = .label l
    · rw [hj, List.idxOf_cons_self]
      exact (List.idxOf_cons_self).symm
    · rw [List.idxOf_cons_ne _ hj, List.take_succ_cons]
      unfold withoutLines at ih ⊢
      rw [List.filter_cons, List.filter_cons]
      split
      · rw [List.length_cons, ih, List.idxOf_cons_ne _ hj]
      · exact ih

theorem compressed_goTo :
    (goTo prog l past).compressed prog = goTo (withoutLines prog) l past := by
  have hmem : .label l ∈ withoutLines prog ↔ .label l ∈ prog := by
    rw [← mem_placed, placed_withoutLines, mem_placed]
  unfold goTo
  by_cases hl : .label l ∈ prog
  · rw [if_pos hl, if_pos (hmem.mpr hl), compressed_at, length_withoutLines_idxOf]
  · rw [if_neg hl, if_neg (hmem.not.mpr hl), compressed_ended]

theorem compressed_raised :
    (raised prog l past).compressed prog = raised (withoutLines prog) l past := by
  unfold raised
  split
  · rfl
  · exact compressed_goTo

theorem step_line (O : Oracle) (past : Deeds) (hi : prog[p]? = some i) (hline : i.isLine) :
    step O prog (.at p past) = .at (p + 1) past ∧
      (Machine.at (p + 1) past).compressed prog = (Machine.at p past).compressed prog := by
  have heffect : i.effect = .passes := by
    cases i <;> first | rfl | cases hline
  have hnone : withoutLines [i] = [] :=
    List.filter_cons_of_neg (by rw [hline]; exact Bool.false_ne_true)
  constructor
  · rw [step, hi, Option.map_some, heffect]
  · rw [compressed_at, withoutLines_take_succ hi, hnone, List.append_nil, compressed_at]

/-- Every other instruction does the same in both lists. -/
theorem compressed_step (hi : prog[p]? = some i) (hline : i.isLine = false) :
    (step O prog (.at p past)).compressed prog =
      step O (withoutLines prog) ((Machine.at p past).compressed prog) := by
  have hone : withoutLines [i] = [i] := List.filter_cons_of_pos (by rw [hline]; rfl)
  have hnext : ∀ past, (Machine.at (p + 1) past).compressed prog =
      .at ((withoutLines (prog.take p)).length + 1) past := by
    intro past
    rw [compressed_at, withoutLines_take_succ hi, hone, List.length_append, List.length_singleton]
  rw [compressed_at, step, step, hi, getElem?_withoutLines hi hline, Option.map_some]
  cases i.effect with
  | passes => exact hnext past
  | goes target => exact compressed_goTo
  | branches op target value test =>
    dsimp only
    split
    · exact compressed_goTo
    · exact hnext _
  | calls call =>
    dsimp only
    split
    · rw [rescuerAt_withoutLines]
      exact compressed_raised
    · exact hnext _
  | raises =>
    dsimp only
    rw [rescuerAt_withoutLines]
    exact compressed_raised
  | leaves => rfl

theorem compressed_step_end (hi : prog[p]? = none) : (step O prog (.at p past)).compressed prog =
    step O (withoutLines prog) ((Machine.at p past).compressed prog) := by
  have htake : prog.take p = prog := List.take_of_length_le (List.getElem?_eq_none_iff.mp hi)
  have hend : (withoutLines prog)[(withoutLines prog).length]? = none :=
    List.getElem?_eq_none le_rfl
  rw [compressed_at, step, step, hi, htake, hend]
  rfl

/-- Behind the lines at hand, the list takes a step that it takes without lines. -/
theorem exists_compressed_step (O : Oracle) (prog : List Instr) (m : Machine) : ∃ k, 1 ≤ k ∧
    (exec O prog k m).compressed prog = step O (withoutLines prog) (m.compressed prog) := by
  cases m with
  | ended e past => exact ⟨1, le_rfl, rfl⟩
  | «at» p past =>
    -- on the number of instructions that follow
    induction hn : prog.length - p generalizing p with
    | zero =>
      have hi : prog[p]? = none := List.getElem?_eq_none (Nat.sub_eq_zero_iff_le.mp hn)
      exact ⟨1, le_rfl, compressed_step_end hi⟩
    | succ n ih =>
      have hlt : p < prog.length := by omega
      have hi := List.getElem?_eq_getElem hlt
      cases hline : prog[p].isLine with
      | false => exact ⟨1, le_rfl, compressed_step hi hline⟩
      | true =>
        obtain ⟨hstep, hsame⟩ := step_line O past hi hline
        obtain ⟨k, -, hk⟩ := ih (p + 1) (by omega)
        refine ⟨k + 1, Nat.le_add_left 1 k, ?_⟩
        rw [exec, hstep, hk, hsame]

theorem exists_compressed_exec (O : Oracle) (prog : List Instr) (n : Nat) (m : Machine) : ∃ k, n ≤ k ∧
    (exec O prog k m).compressed prog = exec O (withoutLines prog) n (m.compressed prog) := by
  induction n generalizing m with
  | zero => exact ⟨0, le_rfl, rfl⟩
  | succ n ih =>
    obtain ⟨k, hk, hstep⟩ := exists_compressed_step O prog m
    obtain ⟨j, hj, hexec⟩ := ih (exec O prog k m)
    refine ⟨k + j, by omega, ?_⟩
    rw [exec_add, hexec, hstep, exec]

end Lines

end Machine

end ScopeIR
