import ScopeIR.Proofs.Nested
import ScopeIR.Proofs.Placement

/-! Jumps to the ends of loops. Breaks write the result of the loop right before they jump, and copies
of ensure bodies write a temporary of their own there. -/

namespace ScopeIR

open Session

def Instr.isJump : Instr → Bool
  | .jump _ => true
  | _ => false

/-- In front of every jump to the label a temporary is written whose index is not below `n`. -/
def Guards (n : Nat) (l : Label) (xs : List Instr) : Prop :=
  ∀ before after, xs = before ++ .jump l :: after →
    ∃ front w value, before = front ++ [.copy w value] ∧ w.isTemp ∧ n ≤ w.index

namespace Guards

variable {n m : Nat} {l : Label} {i : Instr} {xs ys : List Instr}

theorem of_not_mem (h : .jump l ∉ xs) : Guards n l xs := by
  rintro before after rfl
  exact absurd (List.mem_append_right _ List.mem_cons_self) h

theorem nil : Guards n l [] := of_not_mem List.not_mem_nil

theorem mono (h : Guards n l xs) (hm : m ≤ n) : Guards m l xs := by
  intro before after he
  obtain ⟨front, w, value, hbefore, hw, hn⟩ := h before after he
  exact ⟨front, w, value, hbefore, hw, hm.trans hn⟩

theorem cons (hi : i ≠ .jump l) (h : Guards n l xs) : Guards n l (i :: xs) := by
  intro before after he
  cases before with
  | nil =>
    rw [List.nil_append] at he
    exact absurd (List.cons.inj he).1 hi
  | cons j before =>
    rw [List.cons_append] at he
    obtain ⟨hij, hxs⟩ := List.cons.inj he
    obtain ⟨front, w, value, rfl, hw⟩ := h before after hxs
    exact ⟨j :: front, w, value, rfl, hw⟩

theorem append (hx : Guards n l xs) (hy : Guards n l ys) : Guards n l (xs ++ ys) := by
  intro before after he
  rcases List.append_eq_append_iff.mp he with ⟨rest, rfl, hrest⟩ | ⟨rest, rfl, hrest⟩
  · obtain ⟨front, w, value, rfl, hw⟩ := hy rest after hrest
    exact ⟨xs ++ front, w, value, by rw [List.append_assoc], hw⟩
  · cases rest with
    | nil =>
      obtain ⟨front, w, value, hfront, -⟩ := hy [] after (by rw [hrest]; rfl)
      cases front <;> cases hfront
    | cons j rest =>
      rw [List.cons_append] at hrest
      obtain ⟨rfl, rfl⟩ := List.cons.inj hrest
      exact hx before rest rfl

theorem of_copy {w : Variable} {value : Operand} {m : Label} (hw : w.isTemp) (hn : n ≤ w.index) :
    Guards n l [.copy w value, .jump m] := by
  intro before after he
  rcases before with _ | ⟨i, _ | ⟨j, before⟩⟩
  · cases he
  · cases he
    exact ⟨[], w, value, rfl, hw, hn⟩
  · obtain ⟨-, he⟩ := List.cons.inj he
    obtain ⟨-, he⟩ := List.cons.inj he
    cases before <;> cases he

end Guards

namespace Renaming.Freshens

variable {ρ : Renaming} {first l : Label} {v : Variable} {xs : List Instr} {s t : Session}

/-- Of the temporaries that there were before, those keep their names that the body does not write. -/
theorem var_eq_self_iff (hρ : ρ.Freshens first xs s t) (hv : v.isTemp) (hlt : v.index < s.temps) :
    ρ.var v = v ↔ ∀ i ∈ xs, i.result? ≠ some v := by
  constructor
  · intro hsame i hi hresult
    obtain ⟨-, hge, -⟩ := hρ.var_new v ((hρ.hasVar_iff v).mpr ⟨hv, i, hi, hresult⟩)
    rw [hsame] at hge
    omega
  · intro hnone
    refine var_of_not_hasVar ?_
    rw [Bool.eq_false_iff]
    intro hhas
    obtain ⟨-, i, hi, hresult⟩ := (hρ.hasVar_iff v).mp hhas
    exact hnone i hi hresult

/-- A label that there was before is an image of itself only, if it is not placed in the body. -/
theorem eq_of_label_eq (hρ : ρ.Freshens first xs s t) {m : Label} (hlt : l.index.toNat < s.labels)
    (h : ρ.label m = l) : m = l := by
  by_cases hm : m = first ∨ .label m ∈ xs
  · have := (hρ.label_new m hm).2.1
    rw [h] at this
    omega
  · rw [← h, hρ.label_eq m hm]

/-- The renamed body writes a new temporary in front of the jump. -/
theorem guards_map (hρ : ρ.Freshens first xs s t) {n : Nat} (hlt : l.index.toNat < s.labels)
    (h : Guards n l xs) : Guards s.temps l (xs.map (·.rename ρ)) := by
  intro before after he
  obtain ⟨before', after', rfl, rfl, hafter⟩ := List.map_eq_append_iff.mp he
  cases after' with
  | nil => cases hafter
  | cons i after' =>
    rw [List.map_cons] at hafter
    obtain ⟨hi, -⟩ := List.cons.inj hafter
    have hjump : i = .jump l := by
      cases i <;> simp only [Instr.rename, reduceCtorEq, Instr.jump.injEq] at hi
      rw [hρ.eq_of_label_eq hlt hi]
    obtain ⟨front, w, value, rfl, hw, -⟩ := h before' after' (by rw [hjump])
    have hmem : .copy w value ∈ front ++ [.copy w value] ++ i :: after' :=
      List.mem_append_left _ (List.mem_append_right _ (List.mem_singleton_self _))
    obtain ⟨htemp, hge, -⟩ := hρ.var_new w ((hρ.hasVar_iff w).mpr ⟨hw, _, hmem, rfl⟩)
    refine ⟨front.map (·.rename ρ), ρ.var w, ρ.operand value, ?_, htemp, hge⟩
    rw [List.map_append]
    rfl

end Renaming.Freshens

theorem EnsureFrame.guards_copy {frame : EnsureFrame} {ρ : Renaming} {s t : Session} {n : Nat}
    {l : Label} (hρ : ρ.Freshens frame.bodyStart frame.instrs s t) (hlt : l.index.toNat < s.labels)
    (h : Guards n l frame.instrs) : Guards s.temps l (frame.copy ρ) := by
  have hend : Guards s.temps l [.regionEnd] := .cons (fun he => nomatch he) .nil
  refine .cons (fun he => nomatch he) (.cons (fun he => nomatch he) ?_)
  exact (hρ.guards_map hlt h).append hend

/-- Every jump to the end of one of the loops follows a copy, and no jump goes to the end of a loop
that is still to come. -/
structure Tame (loops : List LoopFrame) (n : Nat) (xs : List Instr) : Prop where
  guards {loop : LoopFrame} : loop ∈ loops → Guards 0 loop.loopEnd xs
  lt {l : Label} : .jump l ∈ xs → l.stem = "_LOOP_END" → l.index.toNat < n

namespace Tame

variable {loops loops' : List LoopFrame} {n m : Nat} {i : Instr} {xs ys : List Instr}

theorem nil : Tame loops n [] := ⟨fun _ => .nil, fun h => nomatch h⟩

theorem mono (h : Tame loops n xs) (hloops : ∀ f ∈ loops', f ∈ loops) (hn : n ≤ m) :
    Tame loops' m xs :=
  ⟨fun hf => h.guards (hloops _ hf), fun hl hstem => (h.lt hl hstem).trans_le hn⟩

theorem append (hx : Tame loops n xs) (hy : Tame loops n ys) : Tame loops n (xs ++ ys) where
  guards hf := (hx.guards hf).append (hy.guards hf)
  lt hl hstem := by
    rcases List.mem_append.mp hl with hl | hl
    · exact hx.lt hl hstem
    · exact hy.lt hl hstem

theorem cons (h : Tame loops n xs) (hi : ∀ l, i ≠ .jump l) : Tame loops n (i :: xs) where
  guards hf := (h.guards hf).cons (hi _)
  lt hl hstem := by
    rcases List.mem_cons.mp hl with he | hl
    · exact absurd he.symm (hi _)
    · exact h.lt hl hstem

theorem pass (h : Tame loops n xs) (hi : i.isJump = false) : Tame loops n (i :: xs) :=
  h.cons fun l hl => by
    rw [hl] at hi
    cases hi

/-- A jump elsewhere. -/
theorem jump {l : Label} (hloops : ∀ f ∈ loops, l ≠ f.loopEnd)
    (hlt : l.stem = "_LOOP_END" → l.index.toNat < n) (h : Tame loops n xs) :
    Tame loops n (.jump l :: xs) where
  guards hf := (h.guards hf).cons fun he => hloops _ hf (Instr.jump.inj he)
  lt hl hstem := by
    rcases List.mem_cons.mp hl with he | hl
    · obtain rfl := Instr.jump.inj he
      exact hlt hstem
    · exact h.lt hl hstem

theorem of_not_mem (h : ∀ l, .jump l ∉ xs) : Tame loops n xs :=
  ⟨fun _ => .of_not_mem (h _), fun hl => absurd hl (h _)⟩

theorem of_plain (h : ∀ i ∈ xs, i.isPlain) : Tame loops n xs :=
  of_not_mem fun _ hl => nomatch h _ hl

theorem branchUnlessEqual {target : Label} {value test : Operand} (h : Tame loops n xs) :
    Tame loops n (.branchUnlessEqual target value test :: xs) := by
  unfold Instr.branchUnlessEqual
  split <;> exact h.pass rfl

theorem branchIf {target : Label} {value test : Operand}
    (hi : Instr.branchIf? value test target = some i) (h : Tame loops n [.jump target]) :
    Tame loops n [i] := by
  rcases branchIf?_cases hi with rfl | rfl | ⟨op, rfl⟩
  · exact nil.pass rfl
  · exact h
  · exact nil.pass rfl

theorem break_ {frame : LoopFrame} {value : Operand} (hframe : frame.result.isTemp)
    (hlt : frame.loopEnd.index.toNat < n) :
    Tame loops n [.copy frame.result value, .jump frame.loopEnd] where
  guards _ := .of_copy hframe (Nat.zero_le _)
  lt hl _ := by
    simp only [List.mem_cons, reduceCtorEq, Instr.jump.injEq, List.not_mem_nil, or_false,
      false_or] at hl
    rwa [hl]

end Tame

/-- What there is to know of the session for exits out of its loops: their labels and results, that no
other jump goes to their ends, and that copies of ensure bodies are tame. -/
structure Watched (s : Session) (h : Trail) : Prop where
  ends : ∀ f ∈ s.builder.loops, f.loopEnd.stem = "_LOOP_END" ∧ f.loopEnd.index.toNat < s.labels
  iterations : ∀ f ∈ s.builder.loops, f.iterStart.stem = "_ITER_BEGIN" ∧
    f.iterEnd.stem = "_ITER_END"
  results : ∀ f ∈ s.builder.loops, f.result.isTemp ∧ f.result.index < s.temps
  entries : ∀ f ∈ s.builder.rescues, f.entry.stem = "LBL"
  start : ∀ l, s.builder.closureStart = some l → l.stem.toList.getLast? = some 'T'
  handed : ∀ l ∈ h.handed, l.index.toNat < s.labels ∧ ∀ f ∈ s.builder.loops, l ≠ f.loopEnd
  ensures : ∀ f ∈ s.builder.ensures, Tame s.builder.loops s.labels f.instrs

/-- Between `s` and `t` only tame code was built, and the labels handed out meanwhile are new. -/
structure Guarding (s : Session) (h : Trail) (t : Session) (k : Trail) (xs : List Instr) : Prop where
  labels_le : s.labels ≤ t.labels
  tame : Tame s.builder.loops t.labels xs
  handed : ∀ l ∈ k.handed, l ∈ h.handed ∨ s.labels ≤ l.index.toNat ∧ l.index.toNat < t.labels

/-- Copies of an ensure body that are made here do not write the result of a loop that they leave. -/
def Astray (p : Nesting × Session) : Prop :=
  ∀ f ∈ p.2.builder.ensures, ∀ loop ∈ p.2.builder.loops, Guards 0 loop.loopEnd f.instrs ∧
    loop.loopEnd.index.toNat < p.2.labels ∧ loop.result.index < p.2.temps

namespace Session

variable {s : Session}

@[simp] theorem temps_entering {frame : EnsureFrame} : (s.entering frame).temps = s.temps := by
  unfold temps tempScope
  cases houter : s.outer with
  | nil => simp only [entering, houter, Builder.tempOwner]
  | cons p outer =>
    simp only [entering, houter, Builder.tempOwner]
    split <;> rfl

@[simp] theorem temps_leaving : s.leaving.temps = s.temps := by
  unfold temps tempScope
  cases houter : s.outer with
  | nil => simp only [leaving, houter, Builder.tempOwner]
  | cons p outer =>
    simp only [leaving, houter, Builder.tempOwner]
    split <;> rfl

end Session

namespace Watched

variable {s t : Session} {h k : Trail} {xs : List Instr} {l : Label} {n : Nat}

theorem of_fresh (hs : s.builder.Fresh) (hh : h.handed = []) : Watched s h where
  ends f hf := by
    rw [hs.loops] at hf
    cases hf
  iterations f hf := by
    rw [hs.loops] at hf
    cases hf
  results f hf := by
    rw [hs.loops] at hf
    cases hf
  entries f hf := by
    rw [hs.rescues] at hf
    cases hf
  start l hl := by
    rcases hs.start with hnone | hsome
    · cases hnone.symm.trans hl
    · obtain rfl := Option.some.inj (hsome.symm.trans hl)
      exact getLast?_startLabel _
  handed l hl := by
    rw [hh] at hl
    cases hl
  ensures f hf := by
    rw [hs.ensures] at hf
    cases hf

theorem start_of_adds (hs : Watched s h) (ht : s.Adds t xs) :
    ∀ l, t.builder.closureStart = some l → l.stem.toList.getLast? = some 'T' := by
  intro l hl
  rcases ht.start with hsame | ⟨-, hsome⟩
  · exact hs.start l (hsame ▸ hl)
  · obtain rfl := Option.some.inj (hsome.symm.trans hl)
    exact getLast?_startLabel _

/-- No loop was opened or closed. -/
theorem adds (hs : Watched s h) (ht : s.Adds t xs) (hloops : t.builder.loops = s.builder.loops)
    (hentries : ∀ f ∈ t.builder.rescues, f.entry.stem = "LBL")
    (hk : ∀ l ∈ k.handed, l ∈ h.handed ∨ s.labels ≤ l.index.toNat ∧ l.index.toNat < t.labels)
    (hensures : ∀ f ∈ t.builder.ensures, Tame s.builder.loops s.labels f.instrs) :
    Watched t k where
  ends f hf := by
    obtain ⟨hstem, hlt⟩ := hs.ends f (hloops ▸ hf)
    exact ⟨hstem, hlt.trans_le ht.labels_le⟩
  iterations f hf := hs.iterations f (hloops ▸ hf)
  results f hf := by
    obtain ⟨htemp, hlt⟩ := hs.results f (hloops ▸ hf)
    exact ⟨htemp, hlt.trans_le ht.temps_le⟩
  entries := hentries
  start := hs.start_of_adds ht
  handed l hl := by
    rw [hloops]
    rcases hk l hl with hl | ⟨hge, hlt⟩
    · obtain ⟨hlt, hne⟩ := hs.handed l hl
      exact ⟨hlt.trans_le ht.labels_le, hne⟩
    · refine ⟨hlt, ?_⟩
      rintro f hf rfl
      have := (hs.ends f hf).2
      omega
  ensures f hf := by
    rw [hloops]
    exact (hensures f hf).mono (fun _ => id) ht.labels_le

theorem later (hs : Watched s h) (ht : s.Emits t xs)
    (hk : ∀ l ∈ k.handed, l ∈ h.handed ∨ s.labels ≤ l.index.toNat ∧ l.index.toNat < t.labels) :
    Watched t k :=
  hs.adds ht.toAdds ht.sameStacks.loops (fun f hf => hs.entries f (ht.sameStacks.rescues ▸ hf)) hk
    fun f hf => hs.ensures f (ht.sameStacks.ensures ▸ hf)

theorem still (hs : Watched s h) (ht : s.Emits t xs) : Watched t h := hs.later ht fun _ => .inl

theorem after (hs : Watched s h) (ht : s.Emits t xs) (hxs : Guarding s h t k xs) : Watched t k :=
  hs.later ht hxs.handed

theorem entering {frame : EnsureFrame} (hs : Watched s h) : Watched (s.entering frame) h where
  ends := hs.ends
  iterations := hs.iterations
  results f hf := by
    rw [temps_entering]
    exact hs.results f hf
  entries := hs.entries
  start := hs.start
  handed := hs.handed
  ensures := hs.ensures

theorem leaving (hs : Watched s h) : Watched s.leaving h where
  ends := hs.ends
  iterations := hs.iterations
  results f hf := by
    rw [temps_leaving]
    exact hs.results f hf
  entries := hs.entries
  start := hs.start
  handed := hs.handed
  ensures := hs.ensures

theorem opensRegion {frame : EnsureFrame} (hs : Watched s h) (ht : s.OpensRegion t frame)
    (hframe : Tame s.builder.loops s.labels frame.instrs) : Watched t h := by
  refine hs.adds ht.toAdds ht.loops (fun f hf => hs.entries f (ht.rescues ▸ hf)) (fun _ => .inl) ?_
  intro f hf
  rw [ht.ensures] at hf
  rcases List.mem_cons.mp hf with rfl | hf
  · exact hframe
  · exact hs.ensures f hf

/-- The loop is new, so that no code there is jumps to its end. -/
theorem opensLoop {frame : LoopFrame} {setResult : Label} (hs : Watched s h)
    (ht : s.OpensLoop t frame setResult) : Watched t h where
  ends f hf := by
    rw [ht.loops] at hf
    rcases List.mem_cons.mp hf with rfl | hf
    · have := ht.lt_iterStart
      have := ht.lt_iterEnd
      have := ht.lt_setResult
      have := ht.lt
      exact ⟨ht.stems.2.1, by omega⟩
    · exact ⟨(hs.ends f hf).1, (hs.ends f hf).2.trans_le ht.labels_le⟩
  iterations f hf := by
    rw [ht.loops] at hf
    rcases List.mem_cons.mp hf with rfl | hf
    · exact ⟨ht.stems.2.2.1, ht.stems.2.2.2.1⟩
    · exact hs.iterations f hf
  results f hf := by
    rw [ht.loops] at hf
    rcases List.mem_cons.mp hf with rfl | hf
    · exact ⟨ht.result_isTemp, ht.result_lt⟩
    · exact ⟨(hs.results f hf).1, (hs.results f hf).2.trans_le ht.temps_le⟩
  entries f hf := hs.entries f (ht.rescues ▸ hf)
  start := hs.start_of_adds ht.toAdds
  handed l hl := by
    obtain ⟨hlt, hne⟩ := hs.handed l hl
    refine ⟨hlt.trans_le ht.labels_le, fun f hf => ?_⟩
    rw [ht.loops] at hf
    rcases List.mem_cons.mp hf with rfl | hf
    · rintro rfl
      have := ht.ge
      have := ht.lt_loopEnd
      omega
    · exact hne f hf
  ensures f hf := by
    have hold := hs.ensures f (ht.ensures ▸ hf)
    refine ⟨fun hloop => ?_, fun hl hstem => (hold.lt hl hstem).trans_le ht.labels_le⟩
    rw [ht.loops] at hloop
    rcases List.mem_cons.mp hloop with rfl | hloop
    · refine .of_not_mem fun hmem => ?_
      have := hold.lt hmem ht.stems.2.1
      have := ht.ge
      have := ht.lt_loopEnd
      omega
    · exact hold.guards hloop

theorem opensRescue {frame : RescueFrame} {rescuer after : Label} (hs : Watched s h)
    (ht : s.OpensRescue t frame rescuer after) : Watched t h :=
  hs.adds ht.toAdds ht.loops (fun f hf => hs.entries f (ht.rescues ▸ hf)) (fun _ => .inl)
    fun f hf => hs.ensures f (ht.ensures ▸ hf)

theorem entersHandler {frame : RescueFrame} (hs : Watched s h) (ht : s.EntersHandler t frame xs)
    (hentry : frame.entry.stem = "LBL") : Watched t h := by
  refine hs.adds ht.toAdds ht.loops ?_ (fun _ => .inl) fun f hf => hs.ensures f (ht.ensures ▸ hf)
  intro f hf
  rw [ht.rescues] at hf
  rcases List.mem_cons.mp hf with rfl | hf
  · exact hentry
  · exact hs.entries f hf

/-- Only loops have ends with this stem. -/
theorem tame_jump (hs : Watched s h) (hl : l.stem ≠ "_LOOP_END")
    (hxs : Tame s.builder.loops n xs) : Tame s.builder.loops n (.jump l :: xs) :=
  hxs.jump (fun f hf he => hl (he ▸ (hs.ends f hf).1)) fun hstem => absurd hstem hl

theorem tame_handed (hs : Watched s h) (hl : l ∈ h.handed) (hn : s.labels ≤ n) :
    Tame s.builder.loops n [.jump l] :=
  .jump (hs.handed l hl).2 (fun _ => (hs.handed l hl).1.trans_le hn) .nil

theorem astray (hs : Watched s h) (place : Nesting) : Astray (place, s) :=
  fun f hf loop hloop =>
    ⟨(hs.ensures f hf).guards hloop, (hs.ends loop hloop).2, (hs.results loop hloop).2⟩

end Watched

namespace Guarding

variable {s s' t t' u : Session} {h h' k l : Trail} {xs ys zs : List Instr}

theorem of_tame (ht : s.Emits t xs) (hxs : Tame s.builder.loops t.labels xs) :
    Guarding s h t h xs := ⟨ht.labels_le, hxs, fun _ => .inl⟩

theorem tame_of (hx : Guarding s' h t k xs) (hloops : ∀ f ∈ s.builder.loops, f ∈ s'.builder.loops)
    {n : Nat} (hn : t.labels ≤ n) : Tame s.builder.loops n xs := hx.tame.mono hloops hn

/-- Labels that were handed out before do not count as handed out meanwhile. -/
theorem retrail (hx : Guarding s h t k xs) (hh : ∀ a ∈ h.handed, a ∈ h'.handed)
    (hl : ∀ a ∈ l.handed, a ∈ k.handed ∨ a ∈ h'.handed) : Guarding s h' t l xs where
  labels_le := hx.labels_le
  tame := hx.tame
  handed a ha := by
    rcases hl a ha with ha | ha
    · exact (hx.handed a ha).imp_left (hh a)
    · exact .inl ha

/-- Other instructions may stand between two parts. -/
theorem append (hx : Guarding s h t k xs) (ht : t.labels ≤ t'.labels)
    (hloops : t'.builder.loops = s.builder.loops) (hy : Guarding t' k u l ys) :
    Guarding s h u l (xs ++ ys) where
  labels_le := (hx.labels_le.trans ht).trans hy.labels_le
  tame := (hx.tame.mono (fun _ => id) (ht.trans hy.labels_le)).append (hloops ▸ hy.tame)
  handed a ha := by
    rcases hy.handed a ha with ha | ⟨hge, hlt⟩
    · refine (hx.handed a ha).imp_right fun ⟨hge, hlt⟩ => ⟨hge, ?_⟩
      exact hlt.trans_le (ht.trans hy.labels_le)
    · exact .inr ⟨(hx.labels_le.trans ht).trans hge, hlt⟩

/-- A construct around its parts. -/
theorem around (hparts : Guarding s' h' u k xs) (hs : s.labels ≤ s'.labels)
    (ht : u.labels ≤ t.labels)
    (hhanded : ∀ l ∈ h'.handed, l ∈ h.handed ∨ s.labels ≤ l.index.toNat ∧ l.index.toNat < s'.labels)
    (hzs : Tame s.builder.loops t.labels zs) : Guarding s h t k zs where
  labels_le := (hs.trans hparts.labels_le).trans ht
  tame := hzs
  handed a ha := by
    rcases hparts.handed a ha with ha | ⟨hge, hlt⟩
    · refine (hhanded a ha).imp_right fun ⟨hge, hlt⟩ => ⟨hge, ?_⟩
      exact hlt.trans_le (hparts.labels_le.trans ht)
    · exact .inr ⟨hs.trans hge, hlt.trans_le ht⟩

end Guarding

section Copies

variable {s t : Session} {frame : EnsureFrame} {frames : List EnsureFrame}
  {loops : List LoopFrame} {xs : List Instr}

/-- Labels that a copy renames are not ends of loops. -/
theorem Tame.copies (hframe : Tame loops s.labels frame.instrs)
    (hends : ∀ f ∈ loops, f.loopEnd.index.toNat < s.labels) (h : Copies frame s t xs) :
    Tame loops t.labels xs := by
  cases h with
  | empty _ _ => exact .nil
  | @full ρ u hρ hu =>
    refine ⟨fun hf => ?_, fun {l} hl hstem => ?_⟩
    · exact (EnsureFrame.guards_copy hρ (hends _ hf) (hframe.guards hf)).mono (Nat.zero_le _)
    · simp only [EnsureFrame.copy, List.cons_append, List.mem_cons, List.mem_append, List.mem_map,
        reduceCtorEq, List.not_mem_nil, false_or, or_false] at hl
      obtain ⟨i, hi, hil⟩ := hl
      obtain ⟨m, rfl, rfl⟩ : ∃ m, i = .jump m ∧ ρ.label m = l := by
        cases i <;> simp only [Instr.rename, reduceCtorEq, Instr.jump.injEq] at hil
        exact ⟨_, rfl, hil⟩
      have hlater := hρ.labels_le.trans hu.labels_le
      by_cases hm : m = frame.bodyStart ∨ .label m ∈ frame.instrs
      · rw [(hρ.label_new m hm).1] at hstem
        exact absurd hstem (by decide)
      · rw [hρ.label_eq m hm] at hstem ⊢
        exact (hframe.lt hi hstem).trans_le hlater

theorem Tame.copiesAll (hframes : ∀ f ∈ frames, Tame loops s.labels f.instrs)
    (hends : ∀ f ∈ loops, f.loopEnd.index.toNat < s.labels) (h : CopiesAll frames s t xs) :
    Tame loops t.labels xs := by
  induction h with
  | nil _ => exact .nil
  | @cons s u t frame frames xs ys hcopy hcopies ih =>
    have hle := hcopy.emits.labels_le
    have hx := Tame.copies (hframes _ List.mem_cons_self) hends hcopy
    have hy := ih (fun f hf => (hframes f (List.mem_cons_of_mem _ hf)).mono (fun _ => id) hle)
      fun f hf => (hends f hf).trans_le hle
    exact (hx.mono (fun _ => id) hcopies.emits.labels_le).append hy

end Copies

section Exits

variable {s t : Session} {h : Trail} {xs : List Instr} {value : Operand}

theorem Watched.tame_copies {frames : List EnsureFrame} {u : Session} (hs : Watched s h)
    (hcopies : CopiesAll frames s u xs) (hframes : ∀ f ∈ frames, f ∈ s.builder.ensures) :
    Tame s.builder.loops u.labels xs :=
  .copiesAll (fun f hf => hs.ensures f (hframes f hf)) (fun f hf => (hs.ends f hf).2) hcopies

theorem Watched.tame_breaks (hs : Watched s h) (hbreaks : s.Breaks value t xs) :
    Tame s.builder.loops t.labels xs := by
  cases hbreaks with
  | loop hframe hcopies hjump =>
    have hmem := List.mem_of_head? hframe
    have hx := hs.tame_copies hcopies fun f hf => mem_of_mem_passedEnsures hf
    have hlt := (hs.ends _ hmem).2.trans_le (hcopies.emits.labels_le.trans hjump.labels_le)
    exact (hx.mono (fun _ => id) hjump.labels_le).append (.break_ (hs.results _ hmem).1 hlt)
  | block _ _ _ _ => exact .of_plain fun i hi => by rw [List.mem_singleton.mp hi]; rfl

theorem Watched.tame_nexts (hs : Watched s h) (hnexts : s.Nexts value t xs) :
    Tame s.builder.loops t.labels xs := by
  cases hnexts with
  | loop hframe hcopies hjump =>
    have hx := hs.tame_copies hcopies fun f hf => mem_of_mem_passedEnsures hf
    refine (hx.mono (fun _ => id) hjump.labels_le).append (hs.tame_jump ?_ .nil)
    rw [(hs.iterations _ (List.mem_of_head? hframe)).2]
    decide
  | block _ hcopies _ _ hret =>
    have hx := hs.tame_copies hcopies fun f hf => hf
    refine (hx.mono (fun _ => id) hret.labels_le).append (.of_not_mem fun l hl => ?_)
    simp only [List.mem_cons, reduceCtorEq, List.not_mem_nil, or_self] at hl

theorem Watched.tame_redoes (hs : Watched s h) (hredoes : s.Redoes t xs) :
    Tame s.builder.loops t.labels xs := by
  have hadds := hredoes.emits.toAdds
  cases hredoes with
  | loop hframe _ =>
    refine hs.tame_jump ?_ .nil
    rw [(hs.iterations _ (List.mem_of_head? hframe)).1]
    decide
  | block _ hstart _ =>
    refine .pass (hs.tame_jump (fun hstem => ?_) .nil) rfl
    have hlast := hs.start_of_adds hadds _ hstart
    rw [hstem] at hlast
    exact absurd hlast (by decide)

theorem Watched.tame_returns (hs : Watched s h) (hreturns : s.Returns value t xs) :
    Tame s.builder.loops t.labels xs := by
  cases hreturns with
  | transfer _ _ hplain _ => exact .of_plain hplain
  | plain _ _ => exact .of_plain fun i hi => by rw [List.mem_singleton.mp hi]; rfl
  | copies hcopy hcopies hret =>
    have hx := (hs.still hcopy).tame_copies hcopies fun f hf => hcopy.sameStacks.ensures ▸ hf
    rw [hcopy.sameStacks.loops] at hx
    refine .pass ((hx.mono (fun _ => id) hret.labels_le).append ?_) rfl
    exact .of_plain fun i hi => by rw [List.mem_singleton.mp hi]; rfl

end Exits

end ScopeIR
