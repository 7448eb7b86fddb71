import ScopeIR.Proofs.Parts
import ScopeIR.Proofs.Writing

/-! Code without exits keeps control in its own list, and each part of code has its list in that of the
whole, with the labels that it may go to outside placed around it. -/

namespace ScopeIR

namespace Code

/-- The sum over the rounds. -/
def overRounds (f : Nat → Nat) : Nat → Nat
  | 0 => 0
  | count + 1 => overRounds f count + f count

/-- How many labels the code hands out. -/
def hands : Code → Nat
  | seq first rest => first.hands + rest.hands
  | ifElse _ _ yes no => yes.hands + no.hands
  | ifNot _ _ body => body.hands
  | forLoop test increment body => 1 + test.hands + 1 + body.hands + increment.hands
  | times count body => overRounds (fun i => 1 + (body i).hands) count
  | labelled _ body => 1 + body.hands
  | loop condition _ body _ _ => condition.hands + body.hands
  | ensure body _ cleanup _ => cleanup.hands + body.hands
  | rescue body _ handler _ => body.hands + handler.hands
  | _ => 0

/-- Without exits. It goes to no labels but those with such numbers, and those that it is handed. -/
def IsConfined (P : Nat → Prop) : Code → Prop
  | jump target | branch _ target _ _ | cond target _ _ | condNe target _ _ => P target
  | .break _ | next _ | redo | retry | .return _ => False
  | seq first rest => first.IsConfined P ∧ rest.IsConfined P
  | ifElse _ _ yes no => yes.IsConfined P ∧ no.IsConfined P
  | ifNot _ _ body | labelled _ body => body.IsConfined P
  | forLoop test increment body => test.IsConfined P ∧ increment.IsConfined P ∧ body.IsConfined P
  | times count body => ∀ i < count, (body i).IsConfined P
  | loop condition _ body _ _ => condition.IsConfined P ∧ body.IsConfined P
  | ensure body _ cleanup _ => body.IsConfined P ∧ cleanup.IsConfined P
  | rescue body _ handler _ => body.IsConfined P ∧ handler.IsConfined P
  | _ => True

end Code

/-- The label of the region that starts there. -/
def Instr.start? : Instr → Option Label
  | .regionStart l => some l
  | _ => none

def targets (xs : List Instr) : List Label := xs.filterMap Instr.target?

def starts (xs : List Instr) : List Label := xs.filterMap Instr.start?

section Lists

variable {xs ys : List Instr} {i : Instr} {l target : Label} {value test : Operand} {ρ : Renaming}

@[simp] theorem targets_append : targets (xs ++ ys) = targets xs ++ targets ys := List.filterMap_append

@[simp] theorem starts_append : starts (xs ++ ys) = starts xs ++ starts ys := List.filterMap_append

theorem targets_cons : targets (i :: xs) = i.target?.toList ++ targets xs := by
  cases h : i.target? with
  | none => exact List.filterMap_cons_none h
  | some l => exact List.filterMap_cons_some h

theorem starts_cons : starts (i :: xs) = i.start?.toList ++ starts xs := by
  cases h : i.start? with
  | none => exact List.filterMap_cons_none h
  | some l => exact List.filterMap_cons_some h

theorem mem_placed_cons : l ∈ placed (i :: xs) ↔ i.label? = some l ∨ l ∈ placed xs := by
  rw [placed_cons, List.mem_append, Option.mem_toList]

theorem mem_targets_cons : l ∈ targets (i :: xs) ↔ i.target? = some l ∨ l ∈ targets xs := by
  rw [targets_cons, List.mem_append, Option.mem_toList]

theorem mem_starts_cons : l ∈ starts (i :: xs) ↔ i.start? = some l ∨ l ∈ starts xs := by
  rw [starts_cons, List.mem_append, Option.mem_toList]

theorem Instr.start?_of_isInside (h : i.isInside) : i.start? = none := by
  cases i <;> first | rfl | cases h

theorem target?_branchUnlessEqual :
    (Instr.branchUnlessEqual target value test).target? = some target := by
  unfold Instr.branchUnlessEqual
  split <;> rfl

theorem start?_branchUnlessEqual : (Instr.branchUnlessEqual target value test).start? = none :=
  Instr.start?_of_isInside (Instr.isInside_of_isMove isMove_branchUnlessEqual)

theorem start?_branchIf (hi : Instr.branchIf? value test target = some i) : i.start? = none :=
  Instr.start?_of_isInside (Instr.isInside_of_isMove (isMove_of_branchIf hi))

theorem eq_of_mem_target?_branchIf (hi : Instr.branchIf? value test target = some i)
    (hl : l ∈ i.target?.toList) : l = target := by
  rcases branchIf?_cases hi with rfl | rfl | ⟨op, rfl⟩
  · cases hl
  · exact List.mem_singleton.mp hl
  · exact List.mem_singleton.mp hl

@[simp] theorem target?_rename : (i.rename ρ).target? = i.target?.map ρ.label := by cases i <;> rfl

@[simp] theorem start?_rename : (i.rename ρ).start? = i.start?.map ρ.label := by cases i <;> rfl

theorem targets_map_rename (ρ : Renaming) (xs : List Instr) :
    targets (xs.map (·.rename ρ)) = (targets xs).map ρ.label := by
  simp only [targets, List.filterMap_map, List.map_filterMap, Function.comp_def, target?_rename]

theorem starts_map_rename (ρ : Renaming) (xs : List Instr) :
    starts (xs.map (·.rename ρ)) = (starts xs).map ρ.label := by
  simp only [starts, List.filterMap_map, List.map_filterMap, Function.comp_def, start?_rename]

theorem mem_placed_flatMap {ns : List Nat} {f : Nat → List Instr} :
    l ∈ placed (ns.flatMap f) ↔ ∃ n ∈ ns, l ∈ placed (f n) := by
  rw [placed, List.filterMap_flatMap, List.mem_flatMap]
  rfl

theorem mem_targets_flatMap {ns : List Nat} {f : Nat → List Instr} :
    l ∈ targets (ns.flatMap f) ↔ ∃ n ∈ ns, l ∈ targets (f n) := by
  rw [targets, List.filterMap_flatMap, List.mem_flatMap]
  rfl

theorem mem_starts_flatMap {ns : List Nat} {f : Nat → List Instr} :
    l ∈ starts (ns.flatMap f) ↔ ∃ n ∈ ns, l ∈ starts (f n) := by
  rw [starts, List.filterMap_flatMap, List.mem_flatMap]
  rfl

end Lists

/-- It was handed out with such a number. -/
def Given (P : Nat → Prop) (h : List Label) (l : Label) : Prop := ∃ n, P n ∧ h[n]? = some l

section Handed

variable {r : Label} {h h' : List Label} {c : Code} {xs : List Instr} {P : Nat → Prop} {l after : Label}

theorem given_true : Given (fun _ => True) h l ↔ l ∈ h := by
  simp only [Given, true_and, List.mem_iff_getElem?]

theorem given_concat (hl : Given P (h ++ [after]) l) : Given P h l ∨ l = after := by
  obtain ⟨n, hn, hl⟩ := hl
  rcases Nat.lt_or_ge n h.length with hlt | hge
  · exact .inl ⟨n, hn, by rwa [List.getElem?_append_left hlt] at hl⟩
  · rw [List.getElem?_append_right hge] at hl
    exact .inr (List.mem_singleton.mp (List.mem_of_getElem? hl))

/-- What rounds hand out is placed in them, or it is the label that each of them was handed. -/
theorem handed_of_rounds {xs : Nat → List Instr} {hs : Nat → List Label} {count : Nat}
    (h : ∀ i < count, ∀ l, Given P (hs (i + 1)) l → Given P (hs i ++ [after]) l ∨ l ∈ placed (xs i))
    {i : Nat} (hi : i ≤ count) (hl : Given P (hs i) l) :
    Given P (hs 0) l ∨ l ∈ placed ((List.range count).flatMap xs) ∨ l = after := by
  induction i with
  | zero => exact .inl hl
  | succ i ih =>
    rcases h i hi l hl with hl | hl
    · rcases given_concat hl with hl | hl
      · exact ih (Nat.le_of_succ_le hi) hl
      · exact .inr (.inr hl)
    · exact .inr (.inl (mem_placed_flatMap.mpr ⟨i, List.mem_range.mpr hi, hl⟩))

/-- Labels are handed out by what places them. -/
theorem Writes.handed (hw : Writes r h c xs h') (hl : Given P h' l) :
    Given P h l ∨ l ∈ placed xs := by
  induction hw generalizing l with
  | silent | emit | call | zsuper | exit | stray | jump | branch | cond | condNe => exact .inl hl
  | seq _ _ _ _ ihFirst ihRest =>
    have hrest := ihRest hl
    have hfirst := ihFirst (l := l)
    simp only [placed_append, List.mem_append]
    grind
  | ifNot _ _ _ ih =>
    have hbody := ih hl
    simp only [placed_append, List.mem_append, mem_placed_cons]
    grind
  | labelled _ _ ih =>
    have hbody := (ih hl).imp_left given_concat
    simp only [placed_append, List.mem_append, mem_placed_cons, Instr.label?, Option.some.injEq]
    grind
  | ifElse _ _ _ _ ih ih' | loopFirst _ _ _ _ _ ih ih' | loopLast _ _ _ _ _ ih ih'
  | ensure _ _ _ _ _ _ ih ih' | rescue _ _ _ _ ih ih' =>
    have hsecond := ih' hl
    have hfirst := ih (l := l)
    simp only [placed_append, List.mem_append, mem_placed_cons]
    grind
  | forLoop _ _ _ _ _ _ ihTest ihBody ihIncrement =>
    have hincrement := ihIncrement hl
    have hbody : _ → _ := fun hl => (ihBody (l := l) hl).imp_left given_concat
    have htest : _ → _ := fun hl => (ihTest (l := l) hl).imp_left given_concat
    simp only [placed_append, List.mem_append, mem_placed_cons, Instr.label?, Option.some.injEq]
    grind
  | times hzero _ _ ih =>
    have hall := handed_of_rounds (fun i hi l hl => ih i hi hl) le_rfl hl
    rw [hzero] at hall
    simp only [placed_append, List.mem_append, mem_placed_cons, Instr.label?, Option.some.injEq]
    grind

theorem Writes.handed_within {zs : List Instr} (hw : Writes r h c xs h') (hxs : xs ⊆ zs)
    (hl : Given P h' l) : l ∈ placed zs ∨ Given P h l :=
  (hw.handed hl).symm.imp_left fun hl => mem_placed.mpr (hxs (mem_placed.mp hl))

/-- The label that was handed out first is placed in the whole. -/
theorem Writes.handed_labelled {zs : List Instr} (hw : Writes r (h ++ [after]) c xs h') (hxs : xs ⊆ zs)
    (hafter : .label after ∈ zs) (hl : Given P h' l) : l ∈ placed zs ∨ Given P h l := by
  rcases hw.handed_within hxs hl with hl | hl
  · exact .inl hl
  · refine (given_concat hl).symm.imp_left ?_
    rintro rfl
    exact mem_placed.mpr hafter

theorem Writes.mem_handed {zs : List Instr} (hw : Writes r h c xs h') (hxs : xs ⊆ zs) (hl : l ∈ h') :
    l ∈ h ∨ l ∈ placed zs :=
  (hw.handed_within hxs (given_true.mpr hl)).symm.imp_left given_true.mp

theorem Writes.mem_handed_labelled {zs : List Instr} (hw : Writes r (h ++ [after]) c xs h')
    (hxs : xs ⊆ zs) (hafter : .label after ∈ zs) (hl : l ∈ h') : l ∈ h ∨ l ∈ placed zs :=
  (hw.handed_labelled hxs hafter (given_true.mpr hl)).symm.imp_left given_true.mp

theorem prefix_of_rounds {hs : Nat → List Label} {count : Nat}
    (h : ∀ i < count, hs i <+: hs (i + 1)) {i : Nat} (hi : i ≤ count) : hs 0 <+: hs i := by
  induction i with
  | zero => exact List.prefix_rfl
  | succ i ih => exact (ih (Nat.le_of_succ_le hi)).trans (h i hi)

/-- What was handed out before keeps its number. -/
theorem Writes.handed_prefix (hw : Writes r h c xs h') : h <+: h' := by
  have hconcat : ∀ {h k : List Label} {l : Label}, h ++ [l] <+: k → h <+: k :=
    fun h => (List.prefix_append _ _).trans h
  induction hw with
  | silent | emit | call | zsuper | exit | stray | jump | branch | cond | condNe => exact List.prefix_rfl
  | seq _ _ _ _ ih ih' | ifElse _ _ _ _ ih ih' | loopFirst _ _ _ _ _ ih ih' | loopLast _ _ _ _ _ ih ih'
  | ensure _ _ _ _ _ _ ih ih' | rescue _ _ _ _ ih ih' => exact ih.trans ih'
  | ifNot _ _ _ ih => exact ih
  | labelled _ _ ih => exact hconcat ih
  | forLoop _ _ _ _ _ _ ih ih' ih'' => exact ((hconcat ih).trans (hconcat ih')).trans ih''
  | times hzero _ _ ih => exact hzero ▸ prefix_of_rounds (fun i hi => hconcat (ih i hi)) le_rfl

theorem length_of_rounds {hs : Nat → List Label} {f : Nat → Nat} {count : Nat}
    (h : ∀ i < count, (hs (i + 1)).length = (hs i).length + f i) {i : Nat} (hi : i ≤ count) :
    (hs i).length = (hs 0).length + Code.overRounds f i := by
  induction i with
  | zero => rfl
  | succ i ih => rw [h i hi, ih (Nat.le_of_succ_le hi), Code.overRounds, Nat.add_assoc]

theorem Writes.length_handed (hw : Writes r h c xs h') : h'.length = h.length + c.hands := by
  induction hw with
  | @silent _ _ c hc | @exit _ _ c _ hc _ => cases c <;> first | rfl | cases hc
  | @stray _ _ c _ hc _ => cases c <;> first | rfl | cases hc
  | emit | call | zsuper | jump | branch | cond | condNe => rfl
  | seq _ _ _ _ ih ih' | ifElse _ _ _ _ ih ih' | loopFirst _ _ _ _ _ ih ih' | ensure _ _ _ _ _ _ ih ih'
  | rescue _ _ _ _ ih ih' => rw [ih', ih, Code.hands, Nat.add_assoc]
  | loopLast _ _ _ _ _ ih ih' => rw [ih', ih, Code.hands, Nat.add_assoc, Nat.add_comm (Code.hands _)]
  | ifNot _ _ _ ih => rw [ih, Code.hands]
  | labelled _ _ ih => rw [ih, Code.hands, List.length_append, List.length_singleton, Nat.add_assoc]
  | forLoop _ _ _ _ _ _ ih ih' ih'' =>
    rw [ih'', ih', List.length_append, ih, List.length_append, List.length_singleton, Code.hands]
    simp only [List.length_singleton, Nat.add_assoc]
  | @times _ _ count body _ hs after hzero _ _ ih =>
    have hround : ∀ i < count, (hs (i + 1)).length = (hs i).length + (1 + (body i).hands) := by
      intro i hi
      rw [ih i hi, List.length_append, List.length_singleton, Nat.add_assoc]
    rw [length_of_rounds hround le_rfl, hzero, Code.hands]

end Handed

/-- What is in `xs` sends control to labels of `zs` or to those that are given. What it raises goes to
labels of `zs` or to those of the regions around. -/
structure StaysIn (zs : List Instr) (around : List Label) (given : Label → Prop) (xs : List Instr) :
    Prop where
  targets {l : Label} : l ∈ targets xs → l ∈ placed zs ∨ given l
  starts {l : Label} : l ∈ starts xs → l ∈ placed zs ∨ l ∈ around

namespace StaysIn

open Session

variable {zs xs ys cs : List Instr} {around around' : List Label} {given given' : Label → Prop}
  {i : Instr} {l : Label}
  {frame : EnsureFrame} {s t : Session}

theorem nil : StaysIn zs around given [] := ⟨fun hl => (nomatch hl), fun hl => nomatch hl⟩

theorem append (hx : StaysIn zs around given xs) (hy : StaysIn zs around given ys) :
    StaysIn zs around given (xs ++ ys) where
  targets hl := by
    rw [targets_append, List.mem_append] at hl
    exact hl.elim hx.targets hy.targets
  starts hl := by
    rw [starts_append, List.mem_append] at hl
    exact hl.elim hx.starts hy.starts

theorem flatMap {ns : List Nat} {f : Nat → List Instr}
    (h : ∀ n ∈ ns, StaysIn zs around given (f n)) : StaysIn zs around given (ns.flatMap f) where
  targets hl := by
    obtain ⟨n, hn, hl⟩ := mem_targets_flatMap.mp hl
    exact (h n hn).targets hl
  starts hl := by
    obtain ⟨n, hn, hl⟩ := mem_starts_flatMap.mp hl
    exact (h n hn).starts hl

theorem cons (htarget : ∀ l, i.target? = some l → l ∈ placed zs ∨ given l)
    (hstart : ∀ l, i.start? = some l → l ∈ placed zs ∨ l ∈ around) (h : StaysIn zs around given xs) :
    StaysIn zs around given (i :: xs) where
  targets hl := by
    rw [mem_targets_cons] at hl
    exact hl.elim (htarget _) h.targets
  starts hl := by
    rw [mem_starts_cons] at hl
    exact hl.elim (hstart _) h.starts

/-- It refers to no label. -/
theorem pass (htarget : i.target? = none) (hstart : i.start? = none) (h : StaysIn zs around given xs) :
    StaysIn zs around given (i :: xs) := by
  refine .cons (fun l hl => ?_) (fun l hl => ?_) h
  · rw [htarget] at hl
    cases hl
  · rw [hstart] at hl
    cases hl

theorem jump (hl : .label l ∈ zs) (h : StaysIn zs around given xs) :
    StaysIn zs around given (.jump l :: xs) :=
  .cons (fun _ hm => .inl (Option.some.inj hm ▸ mem_placed.mpr hl)) (fun _ hm => nomatch hm) h

theorem region (hl : .label l ∈ zs) (h : StaysIn zs around given xs) :
    StaysIn zs around given (.regionStart l :: xs) :=
  .cons (fun _ hm => nomatch hm) (fun _ hm => .inl (Option.some.inj hm ▸ mem_placed.mpr hl)) h

theorem branchIf {value test : Operand} (hi : Instr.branchIf? value test l = some i)
    (hl : l ∈ placed zs ∨ given l) (h : StaysIn zs around given xs) :
    StaysIn zs around given (i :: xs) := by
  refine .cons (fun m hm => ?_) (fun m hm => ?_) h
  · rwa [eq_of_mem_target?_branchIf hi (Option.mem_toList.mpr hm)]
  · rw [start?_branchIf hi] at hm
    cases hm

theorem branchUnlessEqual {value test : Operand} (hl : l ∈ placed zs ∨ given l)
    (h : StaysIn zs around given xs) :
    StaysIn zs around given (.branchUnlessEqual l value test :: xs) := by
  refine .cons (fun m hm => ?_) (fun m hm => ?_) h
  · rw [target?_branchUnlessEqual] at hm
    exact Option.some.inj hm ▸ hl
  · rw [start?_branchUnlessEqual] at hm
    cases hm

/-- A part may have more given to it, if that is placed in the whole. -/
theorem part (h : StaysIn xs around given xs) (hxs : xs ⊆ zs)
    (haround : ∀ l ∈ around, l ∈ placed zs ∨ l ∈ around')
    (hgiven : ∀ l, given l → l ∈ placed zs ∨ given' l) : StaysIn zs around' given' xs := by
  have hplaced : ∀ {l}, l ∈ placed xs → l ∈ placed zs :=
    fun hl => mem_placed.mpr (hxs (mem_placed.mp hl))
  exact ⟨fun hl => (h.targets hl).elim (fun hl => .inl (hplaced hl)) (hgiven _),
    fun hl => (h.starts hl).elim (fun hl => .inl (hplaced hl)) (haround _)⟩

theorem widen (h : StaysIn xs around given xs) (hxs : xs ⊆ zs) : StaysIn zs around given xs :=
  h.part hxs (fun _ => .inr) fun _ => .inr

section Handed

variable {r after : Label} {h h' : List Label} {c : Code} {P : Nat → Prop}

/-- What code in front hands out is placed there. -/
theorem behind (hy : StaysIn ys around (Given P h') ys) (hys : ys ⊆ zs) (hx : Writes r h c xs h')
    (hxs : xs ⊆ zs) : StaysIn zs around (Given P h) ys :=
  hy.part hys (fun _ => .inr) fun _ => hx.handed_within hxs

/-- The label that is handed to the part is placed behind it. -/
theorem handing (hx : StaysIn xs around (Given P (h ++ [after])) xs) (hxs : xs ⊆ zs)
    (hafter : .label after ∈ zs) : StaysIn zs around (Given P h) xs := by
  refine hx.part hxs (fun _ => .inr) fun l hl => ?_
  rcases given_concat hl with hl | rfl
  · exact .inr hl
  · exact .inl (mem_placed.mpr hafter)

end Handed

/-- In a copy what was placed has a new name, and all else has its old one. -/
theorem copies (hcopy : Copies frame s t cs)
    (h : StaysIn frame.instrs [frame.rescuer] given frame.instrs) :
    StaysIn cs [frame.rescuer] given cs := by
  cases hcopy with
  | empty _ _ => exact .nil
  | @full ρ u hρ _ =>
    have hplaced : ∀ {m}, m ∈ placed frame.instrs → ρ.label m ∈ placed (frame.copy ρ) := by
      intro m hm
      rw [placed_copy]
      exact List.mem_map_of_mem (List.mem_cons_of_mem _ hm)
    have hkept : ∀ m, ρ.label m ∈ placed (frame.copy ρ) ∨ ρ.label m = m := by
      intro m
      by_cases hm : m = frame.bodyStart ∨ .label m ∈ frame.instrs
      · refine .inl ?_
        rw [placed_copy]
        exact List.mem_map_of_mem (List.mem_cons.mpr (hm.imp_right mem_placed.mpr))
      · exact .inr (hρ.label_eq m hm)
    refine .append (.pass rfl rfl (.cons (fun _ hl => nomatch hl) ?_ ⟨fun hl => ?_, fun hl => ?_⟩))
      (.pass rfl rfl .nil)
    · exact fun l hl => .inr (List.mem_singleton.mpr (Option.some.inj hl).symm)
    · rw [targets_map_rename] at hl
      obtain ⟨m, hm, rfl⟩ := List.mem_map.mp hl
      rcases h.targets hm with hm | hm
      · exact .inl (hplaced hm)
      · refine (hkept m).imp_right fun he => ?_
        rwa [he]
    · rw [starts_map_rename] at hl
      obtain ⟨m, hm, rfl⟩ := List.mem_map.mp hl
      rcases h.starts hm with hm | hm
      · exact .inl (hplaced hm)
      · refine (hkept m).imp_right fun he => ?_
        rwa [he]

end StaysIn

/-- The list of code without exits is left at its end only, by raises aside. -/
theorem Writes.staysIn {r : Label} {h h' : List Label} {c : Code} {xs : List Instr} {P : Nat → Prop}
    (hw : Writes r h c xs h') (hc : c.IsConfined P) : StaysIn xs [r] (Given P h) xs := by
  -- what the code is handed on the way is placed in its list
  induction hw with
  | silent | stray => exact .nil
  | @emit _ _ i =>
    exact .pass (Instr.target?_of_isPlain i.2)
      (Instr.start?_of_isInside (Instr.isInside_of_isPlain i.2)) .nil
  | call => exact .pass rfl rfl .nil
  | zsuper hinside htargets =>
    refine ⟨fun hl => ?_, fun hl => ?_⟩
    · obtain ⟨i, hi, hl⟩ := List.mem_filterMap.mp hl
      exact .inl (htargets i hi _ hl)
    · obtain ⟨i, hi, hl⟩ := List.mem_filterMap.mp hl
      rw [Instr.start?_of_isInside (hinside i hi)] at hl
      cases hl
  | @exit _ _ c _ hexit _ => cases c <;> first | exact hc.elim | cases hexit
  | jump hl | branch hl =>
    refine .cons (fun m hm => .inr ?_) (fun m hm => nomatch hm) .nil
    exact Option.some.inj hm ▸ ⟨_, hc, hl⟩
  | cond hl hi => exact .branchIf hi (.inr ⟨_, hc, hl⟩) .nil
  | condNe hl => exact .branchUnlessEqual (.inr ⟨_, hc, hl⟩) .nil
  | seq _ _ hfirst _ ih ih' =>
    refine .append ((ih hc.1).widen ?_) ((ih' hc.2).behind ?_ hfirst ?_)
    · exact List.subset_append_left _ _
    · exact List.subset_append_right _ _
    · exact List.subset_append_left _ _
  | ifElse _ _ hyes _ ih ih' =>
    refine .append (.append (.branchUnlessEqual (.inl (mem_placed.mpr ?_)) ?_)
      (.jump ?_ (.pass rfl rfl ?_))) (.pass rfl rfl .nil)
    · simp
    · exact (ih hc.1).widen fun i hi => by simp [hi]
    · simp
    · exact (ih' hc.2).behind (fun i hi => by simp [hi]) hyes fun i hi => by simp [hi]
  | ifNot hi _ _ ih =>
    refine .append (.branchIf hi (.inl (mem_placed.mpr ?_)) ?_) (.pass rfl rfl .nil)
    · simp
    · exact (ih hc).widen fun i hi => by simp [hi]
  | labelled _ _ ih =>
    exact .append ((ih hc).handing (List.subset_append_left _ _) (by simp)) (.pass rfl rfl .nil)
  | forLoop _ _ _ htest hbody _ ih ih' ih'' =>
    refine .append (.append (.append (.pass rfl rfl ?_) ?_) (.pass rfl rfl ?_))
      (.jump ?_ (.pass rfl rfl .nil))
    · exact (ih hc.1).handing (fun i hi => by simp [hi]) (by simp)
    · refine (ih' hc.2.2).part (fun i hi => by simp [hi]) (fun _ => .inr) fun l hl => ?_
      rcases given_concat hl with hl | he
      · exact htest.handed_labelled (fun i hi => by simp [hi]) (by simp) hl
      · exact .inl (mem_placed.mpr (by simp [he]))
    · refine (ih'' hc.2.1).part (fun i hi => by simp [hi]) (fun _ => .inr) fun l hl => ?_
      refine (hbody.handed_labelled (fun i hi => by simp [hi]) (by simp) hl).elim .inl fun hl => ?_
      exact htest.handed_labelled (fun i hi => by simp [hi]) (by simp) hl
    · simp
  | times hzero _ hrounds ih =>
    refine .append (.flatMap fun i hi => ?_) (.pass rfl rfl .nil)
    have hi' := List.mem_range.mp hi
    refine (ih i hi' (hc i hi')).part ?_ (fun _ => .inr) fun l hl => ?_
    · exact fun j hj => List.mem_append_left _ (List.mem_flatMap.mpr ⟨i, hi, hj⟩)
    · rcases given_concat hl with hl | he
      · have hall := handed_of_rounds (fun i hi _ hl => (hrounds i hi).handed hl) hi'.le hl
        rw [hzero] at hall
        simp only [placed_append, List.mem_append, mem_placed_cons, Instr.label?, Option.some.injEq]
        grind
      · exact .inl (mem_placed.mpr (by simp [he]))
  | loopFirst hi _ _ hcondition _ ih ih' =>
    refine .append (.append (.pass rfl rfl ?_) (.branchIf hi (.inl (mem_placed.mpr ?_))
      (.pass rfl rfl (.pass rfl rfl ?_))))
      (.pass rfl rfl (.jump ?_ (.pass rfl rfl (.pass rfl rfl (.pass rfl rfl .nil)))))
    · exact (ih hc.1).widen fun i hi => by simp [hi]
    · simp
    · exact (ih' hc.2).behind (fun i hi => by simp [hi]) hcondition fun i hi => by simp [hi]
    · simp
  | loopLast hi _ _ hbody _ ih ih' =>
    refine .append (.append (.pass rfl rfl (.pass rfl rfl (.pass rfl rfl ?_))) (.pass rfl rfl ?_))
      (.branchIf hi (.inl (mem_placed.mpr ?_)) (.pass rfl rfl (.pass rfl rfl (.pass rfl rfl .nil))))
    · exact (ih hc.2).widen fun i hi => by simp [hi]
    · exact (ih' hc.1).behind (fun i hi => by simp [hi]) hbody fun i hi => by simp [hi]
    · simp
  | ensure hrescuer _ _ hcleanup _ hcopy ih ih' =>
    subst hrescuer
    have hframe := ih hc.2
    refine .append (.append (.append (.pass rfl rfl (.region ?_ ?_)) (.pass rfl rfl (.pass rfl rfl ?_)))
      (.jump ?_ (.pass rfl rfl (.pass rfl rfl (.pass rfl rfl ?_))))) (.pass rfl rfl (.pass rfl rfl .nil))
    · simp
    · refine (ih' hc.1).part (fun i hi => by simp [hi]) (fun l hl => .inl ?_) fun _ =>
        hcleanup.handed_within fun i hi => by simp [hi]
      exact mem_placed.mpr (by simp [List.mem_singleton.mp hl])
    · exact (hframe.copies hcopy).widen fun i hi => by simp [hi]
    · simp
    · exact hframe.widen fun i hi => by simp [hi]
  | rescue _ _ hbody _ ih ih' =>
    refine .append (.append (.pass rfl rfl (.pass rfl rfl (.region ?_ ?_))) (.pass rfl rfl (.pass rfl rfl
      (.jump ?_ (.pass rfl rfl (.pass rfl rfl ?_)))))) (.pass rfl rfl (.pass rfl rfl .nil))
    · simp
    · refine (ih hc.1).part (fun i hi => by simp [hi]) (fun l hl => .inl ?_) fun _ => .inr
      exact mem_placed.mpr (by simp [List.mem_singleton.mp hl])
    · simp
    · exact (ih' hc.2).behind (fun i hi => by simp [hi]) hbody fun i hi => by simp [hi]

/-- The code stands somewhere in the other one, where `m` labels were handed out, if `n` of them were
handed out in front of the other one. -/
inductive Code.IsAmong (d : Code) (m : Nat) : Code → Nat → Prop
  | whole : d.IsAmong m d m
  | first {n : Nat} {first rest : Code} : d.IsAmong m first n → d.IsAmong m (.seq first rest) n
  | rest {n : Nat} {first rest : Code} : d.IsAmong m rest (n + first.hands) →
    d.IsAmong m (.seq first rest) n
  | yes {n : Nat} {value test : Operand} {yes no : Code} : d.IsAmong m yes n →
    d.IsAmong m (.ifElse value test yes no) n
  | no {n : Nat} {value test : Operand} {yes no : Code} : d.IsAmong m no (n + yes.hands) →
    d.IsAmong m (.ifElse value test yes no) n
  | unlessSo {n : Nat} {value test : Operand} {body : Code} : d.IsAmong m body n →
    d.IsAmong m (.ifNot value test body) n
  | labelled {n : Nat} {stem : Stem} {body : Code} : d.IsAmong m body (n + 1) →
    d.IsAmong m (.labelled stem body) n
  | test {n : Nat} {test increment body : Code} : d.IsAmong m test (n + 1) →
    d.IsAmong m (.forLoop test increment body) n
  | each {n : Nat} {test increment body : Code} : d.IsAmong m body (n + 1 + test.hands + 1) →
    d.IsAmong m (.forLoop test increment body) n
  | increment {n : Nat} {test increment body : Code} :
    d.IsAmong m increment (n + 1 + test.hands + 1 + body.hands) →
    d.IsAmong m (.forLoop test increment body) n
  | round {n count i : Nat} {body : Nat → Code} : i < count →
    d.IsAmong m (body i) (n + (Code.times i body).hands + 1) → d.IsAmong m (.times count body) n
  | conditionFirst {n : Nat} {condition body : Code} {value : Operand} {goOn : Bool} :
    d.IsAmong m condition n → d.IsAmong m (.loop condition value body goOn true) n
  | bodyLast {n : Nat} {condition body : Code} {value : Operand} {goOn : Bool} :
    d.IsAmong m body (n + condition.hands) → d.IsAmong m (.loop condition value body goOn true) n
  | bodyFirst {n : Nat} {condition body : Code} {value : Operand} {goOn : Bool} :
    d.IsAmong m body n → d.IsAmong m (.loop condition value body goOn false) n
  | conditionLast {n : Nat} {condition body : Code} {value : Operand} {goOn : Bool} :
    d.IsAmong m condition (n + body.hands) → d.IsAmong m (.loop condition value body goOn false) n
  | cleanup {n : Nat} {body cleanup : Code} {value unused : Operand} : d.IsAmong m cleanup n →
    d.IsAmong m (.ensure body value cleanup unused) n
  | protect {n : Nat} {body cleanup : Code} {value unused : Operand} :
    d.IsAmong m body (n + cleanup.hands) → d.IsAmong m (.ensure body value cleanup unused) n
  | guard {n : Nat} {body handler : Code} {value handled : Operand} : d.IsAmong m body n →
    d.IsAmong m (.rescue body value handler handled) n
  | handler {n : Nat} {body handler : Code} {value handled : Operand} :
    d.IsAmong m handler (n + body.hands) → d.IsAmong m (.rescue body value handler handled) n

/-- In the list stands that of the part. The labels that it may go to outside are placed around it, and so
is the one that covers it. -/
inductive Contains (d : Code) (m : Nat) (r : Label) (h : List Label) (zs : List Instr) : Prop
  | mk (r' : Label) (h₁ h₂ opened : List Label) (front xs back : List Instr) : d.IsBuilt h₁ xs h₂ →
    Writes r' h₁ d xs h₂ → h₁.length = m → zs = front ++ xs ++ back →
    regions [] front = some opened → opened.headD r = r' → (r' = r ∨ r' ∈ placed (front ++ back)) →
    (∀ l ∈ h₁, l ∈ h ∨ l ∈ placed (front ++ back)) → Contains d m r h zs

theorem exists_flatMap_range {count i : Nat} (xs : Nat → List Instr) (hi : i < count) :
    ∃ ys, (List.range count).flatMap xs = (List.range i).flatMap xs ++ xs i ++ ys := by
  induction count with
  | zero => cases hi
  | succ count ih =>
    rw [List.range_succ, List.flatMap_append, List.flatMap_singleton]
    rcases (Nat.lt_succ_iff.mp hi).lt_or_eq with hlt | rfl
    · obtain ⟨ys, hys⟩ := ih hlt
      exact ⟨ys ++ xs count, by rw [hys, List.append_assoc]⟩
    · exact ⟨[], (List.append_nil _).symm⟩

namespace Contains

variable {d : Code} {m : Nat} {r r' : Label} {h h' : List Label} {front back ys zs : List Instr}

/-- A part of the part, if all that may be outside of that is at hand outside of the whole. -/
theorem inside (hd : Contains d m r' h' ys) (hs : Surrounds r r' front back ys zs)
    (hr : r' = r ∨ r' ∈ placed (front ++ back)) (hh : ∀ l ∈ h', l ∈ h ∨ l ∈ placed (front ++ back)) :
    Contains d m r h zs := by
  obtain ⟨r'', h₁, h₂, opened', front', xs, back', hbuilt, hw, hm, heq, hfront', hopened', hr', hh'⟩ := hd
  obtain ⟨hzs, opened, hfront, hopened⟩ := hs.trans ⟨heq, opened', hfront', hopened'⟩
  have hsplit : ∀ {l}, l ∈ placed (front ++ front' ++ (back' ++ back)) ↔
      l ∈ placed (front ++ back) ∨ l ∈ placed (front' ++ back') := by
    intro l
    simp only [placed_append, List.mem_append]
    tauto
  refine ⟨r'', h₁, h₂, opened, front ++ front', xs, back' ++ back, hbuilt, hw, hm, hzs, hfront, hopened,
    ?_, fun l hl => ?_⟩
  · rcases hr' with rfl | hr'
    · exact hr.imp_right fun hr => hsplit.mpr (.inl hr)
    · exact .inr (hsplit.mpr (.inr hr'))
  · rcases hh' l hl with hl | hl
    · exact (hh l hl).imp_right fun hl => hsplit.mpr (.inl hl)
    · exact .inr (hsplit.mpr (.inr hl))

/-- A first part, which knows no more labels than the whole. -/
theorem at_first (hd : Contains d m r h ys) (hs : Surrounds r r front back ys zs) :
    Contains d m r h zs := hd.inside hs (.inl rfl) fun _ hl => .inl hl

/-- A part behind another one, which may have handed labels out. -/
theorem at_second {c : Code} {xs : List Instr} (hd : Contains d m r h' ys)
    (hs : Surrounds r r front back ys zs) (hx : Writes r' h c xs h') (hxs : xs ⊆ front ++ back) :
    Contains d m r h zs := hd.inside hs (.inl rfl) fun _ hl => hx.mem_handed hxs hl

end Contains

section Rounds

variable {count n : Nat} {xs : Nat → List Instr} {r after : Label} {hs : Nat → List Label}
  {body : Nat → Code}

theorem surrounds_round (r after : Label) (hn : n < count) (hxs : ∀ j < count, Balanced (xs j)) :
    ∃ ys, Surrounds r r ((List.range n).flatMap xs) (ys ++ [.label after]) (xs n)
      ((List.range count).flatMap xs ++ [.label after]) := by
  obtain ⟨ys, hys⟩ := exists_flatMap_range xs hn
  refine ⟨ys, .behind (by simp [hys]) (.flatMap fun j hj => ?_)⟩
  exact hxs j ((List.mem_range.mp hj).trans hn)

/-- The rounds in front handed out what they place, and the label behind all of them. -/
theorem handed_in_front (hn : n ≤ count)
    (hall : ∀ j < count, Writes r (hs j ++ [after]) (body j) (xs j) (hs (j + 1))) {l : Label}
    (hl : l ∈ hs n ++ [after]) :
    l ∈ hs 0 ∨ l ∈ placed ((List.range n).flatMap xs) ∨ l = after := by
  rcases List.mem_append.mp hl with hl | hl
  · have hrounds := handed_of_rounds (fun j hj _ hl => (hall j (hj.trans_le hn)).handed hl) le_rfl
      (given_true.mpr hl)
    rwa [given_true] at hrounds
  · exact .inr (.inr (List.mem_singleton.mp hl))

end Rounds

/-- Each part of code has its list in that of the whole. -/
theorem Writes.contains {d c : Code} {m : Nat} {r : Label} {h h' : List Label} {zs : List Instr}
    (hbuilt : c.IsBuilt h zs h') (hw : Writes r h c zs h') (hd : d.IsAmong m c h.length) :
    Contains d m r h zs := by
  have hconcat : ∀ {h : List Label} {l : Label} {n : Nat}, h.length = n → (h ++ [l]).length = n + 1 := by
    rintro _ _ _ rfl
    rw [List.length_append, List.length_singleton]
  generalize hn : h.length = n at hd
  -- the induction is on the way to the part, one construct at a time
  induction hd generalizing r h h' zs with
  | whole =>
    exact ⟨r, h, h', [], [], zs, [], hbuilt, hw, hn, by simp, rfl, rfl, .inl rfl, fun l hl => .inl hl⟩
  | first _ ih =>
    cases hw with
    | seq hbx _ hx _ => exact (ih hbx hx hn).at_first .seq_first
    | silent hc | exit hc | stray hc => cases hc
  | rest _ ih =>
    cases hw with
    | seq _ hby hx hy =>
      refine (ih hby hy (by rw [hx.length_handed, hn])).at_second (.seq_rest hx.balanced) hx ?_
      simp
    | silent hc | exit hc | stray hc => cases hc
  | yes _ ih =>
    cases hw with
    | ifElse hbx _ hx _ => exact (ih hbx hx hn).at_first .ifElse_yes
    | silent hc | exit hc | stray hc => cases hc
  | no _ ih =>
    cases hw with
    | ifElse _ hby hx hy =>
      refine (ih hby hy (by rw [hx.length_handed, hn])).at_second (.ifElse_no hx.balanced) hx ?_
      exact fun i hi => by simp [hi]
    | silent hc | exit hc | stray hc => cases hc
  | unlessSo _ ih =>
    cases hw with
    | ifNot hi hbx hx => exact (ih hbx hx hn).at_first (.ifNot_body hi)
    | silent hc | exit hc | stray hc => cases hc
  | labelled _ ih =>
    cases hw with
    | labelled hbx hx =>
      refine (ih hbx hx (hconcat hn)).inside .seq_first (.inl rfl) fun l hl =>
        (List.mem_append.mp hl).imp_right fun hl => ?_
      exact mem_placed.mpr (by simp [List.mem_singleton.mp hl])
    | silent hc | exit hc | stray hc => cases hc
  | test _ ih =>
    cases hw with
    | forLoop hbx _ _ hx _ _ =>
      refine (ih hbx hx (hconcat hn)).inside .forLoop_test (.inl rfl) fun l hl =>
        (List.mem_append.mp hl).imp_right fun hl => ?_
      exact mem_placed.mpr (by simp [List.mem_singleton.mp hl])
    | silent hc | exit hc | stray hc => cases hc
  | each _ ih =>
    cases hw with
    | forLoop _ hby _ hx hy _ =>
      have hlength := hx.length_handed.trans (by rw [hconcat hn])
      refine (ih hby hy (hconcat hlength)).inside (.forLoop_body hx.balanced) (.inl rfl) fun l hl => ?_
      rcases List.mem_append.mp hl with hl | hl
      · exact hx.mem_handed_labelled (fun i hi => by simp [hi]) (by simp) hl
      · exact .inr (mem_placed.mpr (by simp [List.mem_singleton.mp hl]))
    | silent hc | exit hc | stray hc => cases hc
  | increment _ ih =>
    cases hw with
    | forLoop _ _ hbz hx hy hz =>
      have hlength := hx.length_handed.trans (by rw [hconcat hn])
      refine (ih hbz hz (hy.length_handed.trans (by rw [hconcat hlength]))).inside
        (.forLoop_increment hx.balanced hy.balanced) (.inl rfl) fun l hl => ?_
      refine (hy.mem_handed_labelled (fun i hi => ?_) ?_ hl).elim (fun hl => ?_) .inr
      · simp [hi]
      · simp
      · exact hx.mem_handed_labelled (fun i hi => by simp [hi]) (by simp) hl
    | silent hc | exit hc | stray hc => cases hc
  | @round n count i body hi _ ih =>
    cases hw with
    | @times _ _ _ _ xs hs after hzero hbuilts hall =>
      have hround : ∀ j < count, (hs (j + 1)).length = (hs j).length + (1 + (body j).hands) := by
        intro j hj
        rw [(hall j hj).length_handed, List.length_append, List.length_singleton, Nat.add_assoc]
      have hlength := length_of_rounds hround hi.le
      rw [hzero, hn] at hlength
      obtain ⟨ys, hys⟩ := surrounds_round r after hi fun j hj => (hall j hj).balanced
      refine (ih (hbuilts i hi) (hall i hi) (hconcat hlength)).inside hys (.inl rfl) fun l hl => ?_
      refine hzero ▸ (handed_in_front hi.le hall hl).imp_right ?_
      rintro (hl | rfl)
      · exact mem_placed.mpr (List.mem_append_left _ (mem_placed.mp hl))
      · exact mem_placed.mpr (by simp)
    | silent hc | exit hc | stray hc => cases hc
  | conditionFirst _ ih =>
    cases hw with
    | loopFirst _ hbx _ hx _ => exact (ih hbx hx hn).at_first .loopFirst_condition
    | silent hc | exit hc | stray hc => cases hc
  | bodyLast _ ih =>
    cases hw with
    | loopFirst hi _ hby hx hy =>
      refine (ih hby hy (by rw [hx.length_handed, hn])).at_second (.loopFirst_body hi hx.balanced) hx ?_
      exact fun i hi => by simp [hi]
    | silent hc | exit hc | stray hc => cases hc
  | bodyFirst _ ih =>
    cases hw with
    | loopLast _ hbx _ hx _ => exact (ih hbx hx hn).at_first .loopLast_body
    | silent hc | exit hc | stray hc => cases hc
  | conditionLast _ ih =>
    cases hw with
    | loopLast _ _ hby hx hy =>
      refine (ih hby hy (by rw [hx.length_handed, hn])).at_second (.loopLast_condition hx.balanced) hx ?_
      exact fun i hi => by simp [hi]
    | silent hc | exit hc | stray hc => cases hc
  | cleanup _ ih =>
    cases hw with
    | ensure _ hbx _ hx hy hcopy =>
      exact (ih hbx hx hn).at_first (.ensure_cleanup hy.balanced (hcopy.balanced hx.balanced))
    | silent hc | exit hc | stray hc => cases hc
  | protect _ ih =>
    cases hw with
    | ensure _ _ hby hx hy _ =>
      refine (ih hby hy (by rw [hx.length_handed, hn])).inside .ensure_body
        (.inr (mem_placed.mpr (by simp))) fun l hl => ?_
      exact hx.mem_handed (fun i hi => by simp [hi]) hl
    | silent hc | exit hc | stray hc => cases hc
  | guard _ ih =>
    cases hw with
    | rescue hbx _ hx _ =>
      exact (ih hbx hx hn).inside .rescue_body (.inr (mem_placed.mpr (by simp))) fun l hl => .inl hl
    | silent hc | exit hc | stray hc => cases hc
  | handler _ ih =>
    cases hw with
    | rescue _ hby hx hy =>
      refine (ih hby hy (by rw [hx.length_handed, hn])).at_second (.rescue_handler hx.balanced) hx ?_
      exact fun i hi => by simp [hi]
    | silent hc | exit hc | stray hc => cases hc

end ScopeIR
