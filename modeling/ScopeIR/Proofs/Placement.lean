import Mathlib.Data.List.Nodup
import ScopeIR.Proofs.Exits

/-! Which labels a list places and which it needs, and how this adds up over its parts. -/

namespace ScopeIR

/-- Different from the start label of every scope. -/
def Label.IsInner (l : Label) : Prop := ∀ id : ScopeId, l.stem ≠ id.startLabel.stem

/-- The label that has to be placed for the instruction's sake. -/
def Instr.needs? : Instr → Option Label
  | .jump l | .branch _ l .. => some l
  | .regionStart l => if l = .unrescued then none else some l
  | _ => none

theorem Instr.label?_of_isPlain {i : Instr} (h : i.isPlain) : i.label? = none := by
  cases i <;> first | rfl | cases h

theorem Instr.needs?_of_isPlain {i : Instr} (h : i.isPlain) : i.needs? = none := by
  cases i <;> first | rfl | cases h

/-- No label is placed twice, and those that are referred to are placed. -/
structure WellPlaced (xs : List Instr) : Prop where
  atMostOnce (l : Label) : xs.count (.label l) ≤ 1
  targets {i : Instr} {l : Label} : i ∈ xs → i.target? = some l → xs.count (.label l) = 1
  rescuers {l : Label} : .regionStart l ∈ xs → l ≠ .unrescued → xs.count (.label l) = 1

def placed (xs : List Instr) : List Label := xs.filterMap Instr.label?

def needed (xs : List Instr) : List Label := xs.filterMap Instr.needs?

section Lists

variable {xs ys : List Instr} {i : Instr} {l : Label}

@[simp] theorem placed_nil : placed [] = [] := rfl

@[simp] theorem needed_nil : needed [] = [] := rfl

@[simp] theorem placed_append : placed (xs ++ ys) = placed xs ++ placed ys := List.filterMap_append

@[simp] theorem needed_append : needed (xs ++ ys) = needed xs ++ needed ys := List.filterMap_append

theorem placed_cons : placed (i :: xs) = i.label?.toList ++ placed xs := by
  cases h : i.label? with
  | none => exact List.filterMap_cons_none h
  | some l => exact List.filterMap_cons_some h

theorem needed_cons : needed (i :: xs) = i.needs?.toList ++ needed xs := by
  cases h : i.needs? with
  | none => exact List.filterMap_cons_none h
  | some l => exact List.filterMap_cons_some h

@[simp] theorem placed_label : placed (.label l :: xs) = l :: placed xs := rfl

@[simp] theorem placed_jump : placed (.jump l :: xs) = placed xs := rfl

@[simp] theorem placed_regionStart : placed (.regionStart l :: xs) = placed xs := rfl

@[simp] theorem placed_regionEnd : placed (.regionEnd :: xs) = placed xs := rfl

@[simp] theorem needed_label : needed (.label l :: xs) = needed xs := rfl

@[simp] theorem needed_jump : needed (.jump l :: xs) = l :: needed xs := rfl

@[simp] theorem needed_regionEnd : needed (.regionEnd :: xs) = needed xs := rfl

theorem needed_regionStart (h : l ≠ .unrescued) :
    needed (.regionStart l :: xs) = l :: needed xs := by
  rw [needed_cons, Instr.needs?, if_neg h]
  rfl

theorem placed_plain (h : i.isPlain) : placed (i :: xs) = placed xs :=
  List.filterMap_cons_none (Instr.label?_of_isPlain h)

theorem needed_plain (h : i.isPlain) : needed (i :: xs) = needed xs :=
  List.filterMap_cons_none (Instr.needs?_of_isPlain h)

@[simp] theorem placed_withoutLines : placed (withoutLines xs) = placed xs := by
  have h : ∀ i : Instr, (if !i.isLine then i.label? else none) = i.label? := by
    intro i
    cases i <;> rfl
  simp only [placed, withoutLines, List.filterMap_filter, h]

@[simp] theorem needed_withoutLines : needed (withoutLines xs) = needed xs := by
  have h : ∀ i : Instr, (if !i.isLine then i.needs? else none) = i.needs? := by
    intro i
    cases i <;> rfl
  simp only [needed, withoutLines, List.filterMap_filter, h]

theorem mem_placed : l ∈ placed xs ↔ .label l ∈ xs := by
  simp only [placed, List.mem_filterMap, Instr.label?_eq_some, exists_eq_right]

theorem count_placed : (placed xs).count l = xs.count (.label l) := by
  induction xs with
  | nil => rfl
  | cons i xs ih =>
    rw [placed_cons, List.count_append, ih, List.count_cons, Nat.add_comm]
    congr 1
    by_cases h : i = .label l
    · rw [h]
      simp only [Instr.label?, Option.toList_some, List.count_singleton_self, beq_self_eq_true,
        reduceIte]
    · have hne : l ∉ i.label?.toList := by
        rw [Option.mem_toList]
        exact fun hl => h (Instr.label?_eq_some.mp hl)
      rw [List.count_eq_zero.mpr hne, if_neg (by simpa only [beq_iff_eq] using h)]

theorem wellPlaced_of_count (hcount : ∀ l, (placed xs).count l ≤ 1)
    (hneeds : ∀ l ∈ needed xs, l ∈ placed xs) : WellPlaced xs := by
  have hone : ∀ i ∈ xs, ∀ l, i.needs? = some l → xs.count (.label l) = 1 := by
    intro i hi l hl
    have hmem := hneeds l (List.mem_filterMap.mpr ⟨i, hi, hl⟩)
    rw [← count_placed]
    exact le_antisymm (hcount l) (List.count_pos_iff.mpr hmem)
  refine ⟨fun l => count_placed ▸ hcount l, ?_, ?_⟩
  · intro i l hi hl
    refine hone i hi l ?_
    cases i <;> simp only [Instr.target?, reduceCtorEq] at hl <;> exact hl
  · intro l hi hl
    exact hone _ hi l (if_neg hl)

end Lists

section Stems

variable {l : Label}

theorem getLast?_startLabel (id : ScopeId) : id.startLabel.stem.toList.getLast? = some 'T' := by
  have h : id.startLabel.stem.toList = (toString id.index).toList ++ "_START".toList := by
    simp only [ScopeId.startLabel, String.toList_append, toString]
  rw [h, List.getLast?_append]
  rfl

theorem isInner_of_getLast (h : l.stem.toList.getLast? ≠ some 'T') : l.IsInner := by
  intro id he
  exact h (he ▸ getLast?_startLabel id)

theorem isInner_of_lbl (h : l.stem = "LBL") : l.IsInner := by
  refine isInner_of_getLast ?_
  rw [h]
  decide

theorem ne_unrescued_of_lbl (h : l.stem = "LBL") : l ≠ .unrescued := by
  rintro rfl
  exact absurd h (by decide)

end Stems

/-- Inner labels whose indices ascend between the bounds. -/
def Ascends (lo hi : Nat) : List Label → Prop
  | [] => lo ≤ hi
  | l :: ls => l.IsInner ∧ lo ≤ l.index.toNat ∧ Ascends (l.index.toNat + 1) hi ls

namespace Ascends

variable {lo hi : Nat} {ls : List Label} {l : Label}

theorem bounds (h : Ascends lo hi ls) : lo ≤ hi := by
  induction ls generalizing lo with
  | nil => exact h
  | cons l ls ih => exact h.2.1.trans ((Nat.le_succ _).trans (ih h.2.2))

theorem widen {hi' : Nat} (h : Ascends lo hi ls) (hhi : hi ≤ hi') : Ascends lo hi' ls := by
  induction ls generalizing lo with
  | nil => exact h.trans hhi
  | cons l ls ih => exact ⟨h.1, h.2.1, ih h.2.2⟩

theorem mem (h : Ascends lo hi ls) (hl : l ∈ ls) :
    l.IsInner ∧ lo ≤ l.index.toNat ∧ l.index.toNat < hi := by
  induction ls generalizing lo with
  | nil => cases hl
  | cons m ls ih =>
    rcases List.mem_cons.mp hl with rfl | hl
    · exact ⟨h.1, h.2.1, h.2.2.bounds⟩
    · obtain ⟨hinner, hge, hlt⟩ := ih h.2.2 hl
      exact ⟨hinner, h.2.1.trans ((Nat.le_succ _).trans hge), hlt⟩

theorem count_le (h : Ascends lo hi ls) (l : Label) : ls.count l ≤ 1 := by
  induction ls generalizing lo with
  | nil => exact Nat.zero_le 1
  | cons m ls ih =>
    by_cases hm : m = l
    · subst hm
      have hnot : m ∉ ls := fun hmem => absurd (h.2.2.mem hmem).2.1 (Nat.not_succ_le_self _)
      rw [List.count_cons_self, List.count_eq_zero.mpr hnot]
    · rw [List.count_cons_of_ne hm]
      exact ih h.2.2

end Ascends

/-- No label is placed twice, those that are placed have an index between the bounds, and those that
are needed are placed or given by `P`. -/
structure Places (P : Label → Prop) (lo hi : Nat) (xs : List Instr) : Prop where
  count_le (l : Label) : (placed xs).count l ≤ 1
  inner {l : Label} : l ∈ placed xs → l.IsInner
  bounds {l : Label} : l ∈ placed xs → lo ≤ l.index.toNat ∧ l.index.toNat < hi
  needs {l : Label} : l ∈ needed xs → l ∈ placed xs ∨ P l

namespace Places

variable {P P' : Label → Prop} {lo lo' mid hi hi' : Nat} {xs ys zs : List Instr} {l : Label}

theorem widen (h : Places P lo hi xs) (hlo : lo' ≤ lo) (hhi : hi ≤ hi')
    (hP : ∀ l, P l → P' l) : Places P' lo' hi' xs where
  count_le := h.count_le
  inner := h.inner
  bounds hl := ⟨hlo.trans (h.bounds hl).1, (h.bounds hl).2.trans_le hhi⟩
  needs hl := (h.needs hl).imp_right (hP _)

theorem mono (h : Places P lo hi xs) (hP : ∀ l, P l → P' l) : Places P' lo hi xs :=
  h.widen le_rfl le_rfl hP

theorem of_not_placed (hxs : placed xs = []) (hneeds : ∀ l ∈ needed xs, P l) :
    Places P lo hi xs where
  count_le l := by simp only [hxs, List.count_nil, Nat.zero_le]
  inner hl := by simp only [hxs, List.not_mem_nil] at hl
  bounds hl := by simp only [hxs, List.not_mem_nil] at hl
  needs hl := .inr (hneeds _ hl)

theorem nil : Places P lo hi [] := of_not_placed rfl fun _ hl => nomatch hl

theorem of_plain (h : ∀ i ∈ xs, i.isPlain) : Places P lo hi xs := by
  refine of_not_placed ?_ fun l hl => ?_
  · exact List.filterMap_eq_nil_iff.mpr fun i hi => Instr.label?_of_isPlain (h i hi)
  · obtain ⟨i, hi, hl⟩ := List.mem_filterMap.mp hl
    rw [Instr.needs?_of_isPlain (h i hi)] at hl
    cases hl

theorem plain_cons {i : Instr} (hi : i.isPlain) (h : Places P lo hi' xs) :
    Places P lo hi' (i :: xs) := by
  have hp : placed (i :: xs) = placed xs := placed_plain hi
  have hn : needed (i :: xs) = needed xs := needed_plain hi
  exact ⟨hp ▸ h.count_le, fun hl => h.inner (hp ▸ hl), fun hl => h.bounds (hp ▸ hl),
    fun hl => hp ▸ h.needs (hn ▸ hl)⟩

theorem of_needs (hplaced : placed xs = []) (hneeded : needed xs = [l]) (hl : P l) :
    Places P lo hi xs :=
  of_not_placed hplaced fun _ hm => List.mem_singleton.mp (hneeded ▸ hm) ▸ hl

theorem jump (hl : P l) : Places P lo hi [.jump l] := of_needs rfl rfl hl

/-- What the first list places is there for the second one. -/
theorem append (hxs : Places P lo mid xs) (hys : Places (fun l => l ∈ placed xs ∨ P l) mid hi ys)
    (hlo : lo ≤ mid) (hhi : mid ≤ hi) : Places P lo hi (xs ++ ys) where
  count_le l := by
    rw [placed_append, List.count_append]
    have hx := hxs.count_le l
    have hy := hys.count_le l
    by_cases hl : l ∈ placed xs
    · have hnot : l ∉ placed ys := fun hl' => by
        have := (hxs.bounds hl).2
        have := (hys.bounds hl').1
        omega
      rw [List.count_eq_zero.mpr hnot]
      exact hx
    · rw [List.count_eq_zero.mpr hl, Nat.zero_add]
      exact hy
  inner hl := by
    rw [placed_append, List.mem_append] at hl
    exact hl.elim hxs.inner hys.inner
  bounds hl := by
    rw [placed_append, List.mem_append] at hl
    rcases hl with hl | hl
    · exact ⟨(hxs.bounds hl).1, (hxs.bounds hl).2.trans_le hhi⟩
    · exact ⟨hlo.trans (hys.bounds hl).1, (hys.bounds hl).2⟩
  needs {l} hl := by
    rw [needed_append, List.mem_append] at hl
    rw [placed_append, List.mem_append]
    rcases hl with hl | hl
    · exact (hxs.needs hl).imp_left .inl
    · rcases hys.needs hl with hl | hl | hl
      · exact .inl (.inr hl)
      · exact .inl (.inl hl)
      · exact .inr hl

/-- A construct whose own labels were made before its parts were built, and whose instructions around
the parts need nothing but these labels. -/
theorem of_parts (own : List Label) (hown : Ascends lo mid own)
    (hparts : Places (fun l => l ∈ own ∨ P l) mid hi xs) (hhi : mid ≤ hi)
    (hcount : ∀ l, (placed zs).count l = own.count l + (placed xs).count l)
    (hneeds : ∀ l ∈ needed zs, l ∈ own ∨ l ∈ needed xs) : Places P lo hi zs := by
  have hmem : ∀ {l}, l ∈ placed zs ↔ l ∈ own ∨ l ∈ placed xs := by
    intro l
    rw [← List.count_pos_iff, ← List.count_pos_iff, ← List.count_pos_iff, hcount l]
    omega
  refine ⟨?_, ?_, ?_, ?_⟩
  · intro l
    rw [hcount l]
    by_cases hl : l ∈ own
    · have hnot : l ∉ placed xs := fun hl' => by
        have := (hown.mem hl).2.2
        have := (hparts.bounds hl').1
        omega
      rw [List.count_eq_zero.mpr hnot]
      exact hown.count_le l
    · rw [List.count_eq_zero.mpr hl, Nat.zero_add]
      exact hparts.count_le l
  · intro l hl
    exact (hmem.mp hl).elim (fun hl => (hown.mem hl).1) hparts.inner
  · intro l hl
    rcases hmem.mp hl with hl | hl
    · exact ⟨(hown.mem hl).2.1, (hown.mem hl).2.2.trans_le hhi⟩
    · exact ⟨hown.bounds.trans (hparts.bounds hl).1, (hparts.bounds hl).2⟩
  · intro l hl
    rcases hneeds l hl with hl | hl
    · exact .inl (hmem.mpr (.inl hl))
    · rcases hparts.needs hl with hl | hl | hl
      · exact .inl (hmem.mpr (.inr hl))
      · exact .inl (hmem.mpr (.inl hl))
      · exact .inr hl

end Places

section Branches

variable {target l : Label} {value test : Operand} {i : Instr} {xs : List Instr}

theorem placed_branchUnlessEqual :
    placed (.branchUnlessEqual target value test :: xs) = placed xs := by
  unfold Instr.branchUnlessEqual
  split <;> rfl

theorem needed_branchUnlessEqual :
    needed (.branchUnlessEqual target value test :: xs) = target :: needed xs := by
  unfold Instr.branchUnlessEqual
  split <;> rfl

theorem branchIf?_cases (hi : Instr.branchIf? value test target = some i) :
    i = .nop ∨ i = .jump target ∨ ∃ op, i = .branch op target value none := by
  unfold Instr.branchIf? at hi
  grind

theorem placed_branchIf (hi : Instr.branchIf? value test target = some i) :
    placed (i :: xs) = placed xs := by
  rcases branchIf?_cases hi with rfl | rfl | ⟨op, rfl⟩ <;> rfl

theorem mem_needs?_of_branchIf (hi : Instr.branchIf? value test target = some i)
    (hl : l ∈ i.needs?.toList) : l = target := by
  rcases branchIf?_cases hi with rfl | rfl | ⟨op, rfl⟩
  · cases hl
  · exact List.mem_singleton.mp hl
  · exact List.mem_singleton.mp hl

theorem Places.branchIf {P : Label → Prop} {lo hi' : Nat}
    (hi : Instr.branchIf? value test target = some i) (hl : P target) : Places P lo hi' [i] := by
  refine .of_not_placed (placed_branchIf hi) fun m hm => ?_
  rw [needed_cons, needed_nil, List.append_nil] at hm
  obtain rfl := mem_needs?_of_branchIf hi hm
  exact hl

end Branches

section Copies

variable {ρ : Renaming} {i : Instr} {l : Label}

@[simp] theorem label?_rename : (i.rename ρ).label? = i.label?.map ρ.label := by cases i <;> rfl

theorem placed_map_rename (ρ : Renaming) (xs : List Instr) :
    placed (xs.map (·.rename ρ)) = (placed xs).map ρ.label := by
  simp only [placed, List.filterMap_map, List.map_filterMap, Function.comp_def, label?_rename]

theorem placed_copy (frame : EnsureFrame) (ρ : Renaming) :
    placed (frame.copy ρ) = (frame.bodyStart :: placed frame.instrs).map ρ.label := by
  have hend : placed [.regionEnd] = [] := rfl
  simp only [EnsureFrame.copy, List.cons_append, placed_cons, placed_append, placed_map_rename,
    hend, Instr.label?, Option.toList_some, Option.toList_none, List.nil_append, List.append_nil,
    List.map_cons]

/-- A renamed instruction needs the image of a label, which a start of an unrescued region needs
only if that label is renamed. -/
theorem needs?_rename (h : (i.rename ρ).needs? = some l) :
    ∃ m, ρ.label m = l ∧ (i.needs? = some m ∨ ρ.label m ≠ m) := by
  cases i with
  | jump m => exact ⟨m, Option.some.inj h, .inl rfl⟩
  | branch op m value test => exact ⟨m, Option.some.inj h, .inl rfl⟩
  | regionStart m =>
    simp only [Instr.rename, Instr.needs?] at h
    split at h
    · cases h
    · next hne =>
      refine ⟨m, Option.some.inj h, ?_⟩
      by_cases hm : m = .unrescued
      · exact .inr fun he => hne (he.trans hm)
      · exact .inl (if_neg hm)
  | _ => cases h

/-- In every copy of the body no label is placed twice, and those that are needed are placed or given
by `P`. -/
structure EnsureFrame.Copyable (P : Label → Prop) (frame : EnsureFrame) : Prop where
  nodup : (frame.bodyStart :: placed frame.instrs).Nodup
  needs {l : Label} : l ∈ needed frame.instrs → l ∈ placed frame.instrs ∨ P l
  rescuer : frame.rescuer = .unrescued ∨ P frame.rescuer

variable {P : Label → Prop} {frame : EnsureFrame} {frames : List EnsureFrame} {s t : Session}
  {xs : List Instr}

open Session

theorem EnsureFrame.Copyable.mono {P' : Label → Prop} (h : frame.Copyable P)
    (hP : ∀ l, P l → P' l) : frame.Copyable P' :=
  ⟨h.nodup, fun hl => (h.needs hl).imp_right (hP _), h.rescuer.imp_right (hP _)⟩

theorem Renaming.Freshens.places (hρ : ρ.Freshens frame.bodyStart frame.instrs s t)
    (hframe : frame.Copyable P) : Places P s.labels t.labels (frame.copy ρ) := by
  have hnew : ∀ l ∈ frame.bodyStart :: placed frame.instrs,
      l = frame.bodyStart ∨ .label l ∈ frame.instrs := by
    intro l hl
    exact (List.mem_cons.mp hl).imp_right mem_placed.mp
  have hmem : ∀ l, l = frame.bodyStart ∨ .label l ∈ frame.instrs →
      ρ.label l ∈ placed (frame.copy ρ) := by
    intro l hl
    rw [placed_copy]
    exact List.mem_map_of_mem (List.mem_cons.mpr (hl.imp_right mem_placed.mpr))
  have himage : ∀ {l}, l ∈ placed (frame.copy ρ) →
      l.stem = "LBL" ∧ s.labels ≤ l.index.toNat ∧ l.index.toNat < t.labels := by
    intro l hl
    rw [placed_copy] at hl
    obtain ⟨m, hm, rfl⟩ := List.mem_map.mp hl
    exact hρ.label_new m (hnew m hm)
  refine ⟨?_, fun hl => isInner_of_lbl (himage hl).1, fun hl => (himage hl).2, ?_⟩
  · rw [← List.nodup_iff_count_le_one, placed_copy]
    refine List.Nodup.map_on ?_ hframe.nodup
    exact fun l hl m hm he => hρ.label_inj l m (hnew l hl) (hnew m hm) he
  · intro l hl
    obtain ⟨j, hj, hl⟩ := List.mem_filterMap.mp hl
    simp only [EnsureFrame.copy, List.cons_append, List.mem_cons, List.mem_append, List.mem_map,
      List.not_mem_nil, or_false] at hj
    rcases hj with rfl | rfl | ⟨i, hi, rfl⟩ | rfl
    · cases hl
    · simp only [Instr.needs?] at hl
      split at hl
      · cases hl
      · next hne =>
        obtain rfl := Option.some.inj hl
        exact .inr (hframe.rescuer.resolve_left hne)
    · obtain ⟨m, rfl, hm⟩ := needs?_rename hl
      by_cases hnew : m = frame.bodyStart ∨ .label m ∈ frame.instrs
      · exact .inl (hmem m hnew)
      · have hsame := hρ.label_eq m hnew
        have hm := hm.resolve_right fun hne => hne hsame
        rw [hsame]
        have hneeds := hframe.needs (List.mem_filterMap.mpr ⟨i, hi, hm⟩)
        exact .inr (hneeds.resolve_left fun hl => hnew (.inr (mem_placed.mp hl)))
    · cases hl

theorem Session.Copies.places (h : Copies frame s t xs) (hframe : frame.Copyable P) :
    Places P s.labels t.labels xs := by
  cases h with
  | empty _ _ => exact .nil
  | full hρ hu =>
    exact (hρ.places hframe).widen le_rfl hu.labels_le fun _ => id

theorem Session.CopiesAll.places (h : CopiesAll frames s t xs)
    (hframes : ∀ frame ∈ frames, frame.Copyable P) : Places P s.labels t.labels xs := by
  induction h with
  | nil _ => exact .nil
  | cons hcopy hcopies ih =>
    have hx := hcopy.places (hframes _ List.mem_cons_self)
    have hy := ih fun f hf => hframes f (List.mem_cons_of_mem _ hf)
    exact hx.append (hy.mono fun _ => .inr) hcopy.emits.labels_le hcopies.emits.labels_le

theorem mem_of_mem_passedEnsures {loop : Option LoopId} (h : frame ∈ passedEnsures loop frames) :
    frame ∈ frames := by
  cases loop with
  | none => exact h
  | some id => exact (List.takeWhile_sublist _).mem h

end Copies

end ScopeIR
