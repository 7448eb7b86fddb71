import ScopeIR.Proofs.Abandonment

/-! What a builder's flags are made of, as a set: the flags it was given, and those that the
instructions of its list reveal. Every operation adds to the list and to the flags alike, and only
loops, retries and refused super calls give it more. -/

namespace ScopeIR

namespace FlagSet

variable {α β : Type} [Flag α]

instance : Std.Associative (α := FlagSet α) (· ∪ ·) := ⟨union_assoc⟩

instance : Std.Commutative (α := FlagSet α) (· ∪ ·) := ⟨union_comm⟩

instance : Std.IdempotentOp (α := FlagSet α) (· ∪ ·) := ⟨union_self⟩

theorem empty_union (s : FlagSet α) : ∅ ∪ s = s := (union_comm ∅ s).trans (union_empty s)

/-- The union of what the members of the list contribute. -/
def joined (f : β → FlagSet α) : List β → FlagSet α
  | [] => ∅
  | x :: xs => f x ∪ joined f xs

theorem joined_append (f : β → FlagSet α) (xs ys : List β) :
    joined f (xs ++ ys) = joined f xs ∪ joined f ys := by
  induction xs with
  | nil => exact (empty_union _).symm
  | cons x xs ih => rw [List.cons_append, joined, ih, ← union_assoc, joined]

theorem joined_singleton (f : β → FlagSet α) (x : β) : joined f [x] = f x := union_empty _

/-- In whatever order flags are collected. -/
theorem foldl_union (f : β → FlagSet α) (xs : List β) (s : FlagSet α) :
    xs.foldl (fun s x => s ∪ f x) s = s ∪ joined f xs := by
  induction xs generalizing s with
  | nil => exact (union_empty s).symm
  | cons x xs ih => rw [List.foldl_cons, ih, union_assoc, joined]

theorem contains_joined {f : β → FlagSet α} {xs : List β} {a : α} :
    (joined f xs).contains a ↔ ∃ x ∈ xs, (f x).contains a := by
  induction xs with
  | nil => simp only [joined, contains_empty, Bool.false_eq_true, List.not_mem_nil, false_and,
      exists_false]
  | cons x xs ih => rw [joined, contains_union, Bool.or_eq_true, ih, List.exists_mem_cons_iff]

end FlagSet

/-- All that the instructions reveal about the scope that holds them. -/
def shown (xs : List Instr) : ScopeFlags := FlagSet.joined Instr.scopeFlags xs

theorem shown_append (xs ys : List Instr) : shown (xs ++ ys) = shown xs ∪ shown ys :=
  FlagSet.joined_append ..

theorem shown_singleton (i : Instr) : shown [i] = i.scopeFlags := FlagSet.joined_singleton ..

/-- The builder has the flags it was given, those that its list reveals, and no others. -/
def Builder.Accounts (given : ScopeFlags) (b : Builder) : Prop :=
  b.flags = given ∪ shown b.instrs.toList

namespace Builder.Accounts

variable {given : ScopeFlags} {b c : Builder}

theorem of_same (h : b.Accounts given) (hflags : c.flags = b.flags) (hinstrs : c.instrs = b.instrs) :
    c.Accounts given := by
  rw [Accounts, hflags, hinstrs]
  exact h

theorem append (h : b.Accounts given) (i : Instr) : (b.append i).Accounts given := by
  rw [Accounts, Builder.append, h, Array.toList_push, shown_append, shown_singleton,
    FlagSet.union_assoc]

theorem prepend (h : b.Accounts given) (i : Instr) : (b.prepend i).Accounts given := by
  rw [Accounts, Builder.prepend, h, Array.toList_append, shown_append, shown_singleton,
    FlagSet.union_assoc, FlagSet.union_comm i.scopeFlags]

theorem insertFlags (h : b.Accounts given) (flags : ScopeFlags) :
    (b.insertFlags flags).Accounts (given ∪ flags) := by
  rw [Accounts, Builder.insertFlags, h, FlagSet.union_assoc, FlagSet.union_comm (shown _),
    FlagSet.union_assoc]

end Builder.Accounts

namespace Session

variable {α β : Type} {s t : Session} {given gained : ScopeFlags} {i : Instr}

theorem Touch.accounts {P Q : Instr → Prop} (h : s.Touch P Q (fun _ => False) t)
    (hs : s.builder.Accounts given) : t.builder.Accounts given := by
  cases h with
  | append => exact hs.append _
  | prepend => exact hs.prepend _
  | flags h => exact h.elim
  | label | temp | closure | record | fill | note => exact hs.of_same rfl rfl

theorem Touches.accounts
    (h : s.Touches (fun _ => True) (fun _ => True) (fun _ => False) t)
    (hs : s.builder.Accounts given) : t.builder.Accounts given := by
  induction h with
  | refl => exact hs
  | tail _ hstep ih => exact hstep.accounts ih

/-- Basic actions that set no flags by themselves keep the account. -/
theorem Made.accounts {x : SessionM α}
    (h : s.Made (fun _ => True) (fun _ => True) (fun _ => False) x)
    (hs : s.builder.Accounts given) : (x s).2.builder.Accounts given :=
  (h.touches fun _ => trivial).accounts hs

/-- However the action ends, flags and list of the builder have grown alike. -/
def Honest (x : SessionM α) : Prop :=
  ∀ ⦃s : Session⦄ ⦃given : ScopeFlags⦄, s.builder.Accounts given → (x s).2.builder.Accounts given

namespace Honest

theorem bind {x : SessionM α} {f : α → SessionM β} (hx : Honest x) (hf : ∀ a, Honest (f a)) :
    Honest (x >>= f) := by
  intro s given hs
  have ht := hx hs
  rw [bind_apply]
  rcases hr : x s with ⟨e | a, t⟩ <;> rw [hr] at ht
  · exact ht
  · exact hf a ht

theorem pure {a : α} : Honest (Pure.pure a) := fun _ _ hs => hs

theorem current : Honest current := fun _ _ hs => hs

theorem updateBuilder {f : Builder → Builder} (hflags : ∀ b, (f b).flags = b.flags)
    (hinstrs : ∀ b, (f b).instrs = b.instrs) : Honest (updateBuilder f) :=
  fun s _ hs => hs.of_same (hflags s.builder) (hinstrs s.builder)

theorem newLabelNamed (stem : String) : Honest (newLabelNamed stem) :=
  fun _ _ hs => Made.newLabelNamed.accounts hs

theorem temp : Honest temp := fun _ _ hs => Made.temp.accounts hs

theorem emit (i : Instr) : Honest (emit i) := fun _ _ hs => (Made.emit trivial).accounts hs

end Honest

/-- What a retry does where there is a rescue to go back to. -/
def tryAgain (frame : RescueFrame) : SessionM Unit := do
  emit .threadPoll
  emit (.putGlobal BuildT.currentException frame.savedException)
  jump frame.entry
  insertFlags {.hasLoops}

theorem retry_of_cons {frame : RescueFrame} {frames : List RescueFrame}
    (h : s.builder.rescues = frame :: frames) : retry s = tryAgain frame s := by
  rw [retry, bind_of_runs (runs_current.mpr ⟨rfl, rfl⟩), h]
  rfl

theorem Uncatchable.tryAgain (frame : RescueFrame) : Uncatchable (tryAgain frame) :=
  bind emit fun _ => bind emit fun _ => bind emit fun _ => updateBuilder

theorem Uncatchable.runs_of_settled {x : SessionM α} {v : Option α} (hx : Uncatchable x)
    (h : Workshop.settled x s = some (v, t)) : ∃ a, s.Runs x a t := by
  rcases hr : x s with ⟨(e | _ | _ | _) | a, u⟩ <;>
    simp only [Workshop.settled, hr, reduceCtorEq, Option.some.injEq, Prod.mk.injEq] at h
  · exact absurd hr (hx s e u)
  · exact ⟨a, h.2 ▸ hr⟩

/-- Where the action succeeds, the builder has these flags besides. -/
def Grants (gained : ScopeFlags) (x : SessionM α) : Prop :=
  ∀ ⦃s t : Session⦄ ⦃a : α⦄ ⦃given : ScopeFlags⦄, s.Runs x a t → s.builder.Accounts given →
    t.builder.Accounts (given ∪ gained)

namespace Grants

theorem after {x : SessionM α} {f : α → SessionM β} (hx : Honest x) (hf : ∀ a, Grants gained (f a)) :
    Grants gained (x >>= f) := by
  intro s t b given h hs
  obtain ⟨a, u, hu, h⟩ := runs_bind.mp h
  have hu' := hx hs
  rw [hu] at hu'
  exact hf a h hu'

theorem before {x : SessionM α} {f : α → SessionM β} (hx : Grants gained x) (hf : ∀ a, Honest (f a)) :
    Grants gained (x >>= f) := by
  intro s t b given h hs
  obtain ⟨a, u, hu, h⟩ := runs_bind.mp h
  have ht := hf a (hx hu hs)
  rwa [h] at ht

theorem insertFlags (flags : ScopeFlags) : Grants flags (insertFlags flags) := by
  intro s t a given h hs
  obtain rfl := runs_updateBuilder.mp h
  exact hs.insertFlags flags

theorem pushLoop : Grants {.hasLoops} pushLoop := by
  refine after .current fun _ => after (.updateBuilder (fun _ => rfl) fun _ => rfl) fun _ => ?_
  refine after (.newLabelNamed _) fun _ => after (.newLabelNamed _) fun _ => ?_
  refine after (.newLabelNamed _) fun _ => after (.newLabelNamed _) fun _ => after .temp fun _ => ?_
  refine before (insertFlags _) fun _ => ?_
  exact .bind (.updateBuilder (fun _ => rfl) fun _ => rfl) fun _ => .pure

theorem tryAgain (frame : RescueFrame) : Grants {.hasLoops} (tryAgain frame) :=
  after (.emit _) fun _ => after (.emit _) fun _ => after (.emit _) fun _ => insertFlags _

end Grants

end Session

namespace Act

open Session Workshop

variable {s t : Session} {given : ScopeFlags}

theorem accounts_of_pushLoop {v : Option Unit} (h : settled Act.pushLoop.run s = some (v, t))
    (hs : s.builder.Accounts given) : t.builder.Accounts (given ∪ {.hasLoops}) := by
  obtain ⟨frame, u, hpush, h⟩ := Uncatchable.pushLoop.runs h
  cases h
  exact Grants.pushLoop hpush hs

theorem accounts_of_refused {block : Operand} {v : Option Variable}
    (hr : (Act.zsuper block).refuses s) (h : settled (BuildT.zsuper block) s = some (v, t))
    (hs : s.builder.Accounts given) : t.builder.Accounts (given ∪ {.usesZSuper}) := by
  obtain ⟨result, u, htemp, rfl⟩ := refused_of_settled hr h
  have hu := Honest.temp hs
  rw [htemp] at hu
  have hraise : Made (fun _ => True) (fun _ => True) (fun _ => False)
      { u with builder := u.builder.insertFlags {.usesZSuper} } (complaint result) :=
    made_complaint lenient_true
  exact hraise.accounts (hu.insertFlags _)

/-- An operation that makes no loop and is no refused super call gives the builder nothing else. -/
theorem accounts_run {a : Act} (ha : a.isDirect = false) (hloop : a.addsLoop s = false)
    (hrefuses : a.refuses s = false) (hs : s.builder.Accounts given) :
    (a.run s).2.builder.Accounts given := by
  have hwithin : a.Within (fun _ => True) (fun _ => True) (fun _ => False) s :=
    { (within_true : a.Within _ _ _ s) with
      loops := fun h => Bool.eq_false_iff.mp hloop h
      supers := fun h => Bool.eq_false_iff.mp hrefuses h }
  exact (made lenient_true hwithin ha).accounts hs

/-- What an operation gives the builder beside what it adds to the list. -/
theorem accounts_of_settled {a : Act} {v : Option Unit} (h : settled a.run s = some (v, t))
    (hs : s.builder.Accounts given) : t.builder.Accounts (given ∪ a.gained s) := by
  have ht := eq_of_settled h
  have hnone {a : Act} (hx : (a.run s).2.builder.Accounts given) (ht : t = (a.run s).2)
      (hloop : a.addsLoop s = false) (hrefuses : a.refuses s = false) :
      t.builder.Accounts (given ∪ a.gained s) := by
    rwa [gained_eq_empty hloop hrefuses, FlagSet.union_empty, ht]
  have hunit {α : Type} {x : SessionM α} (hx : Honest x) : Honest (do let _ ← x) :=
    hx.bind fun _ => .pure
  cases a with
  | note | setCoverage | setMethodName | setEvalType | pushRescue | pushRescuer | pushEnsure
  | enterEnsureBody => exact hnone (Honest.updateBuilder (fun _ => rfl) (fun _ => rfl) hs) ht rfl rfl
  | popRescue | popRescuer | popLoop | popEnsure | exitEnsureBody =>
    refine hnone (hunit (Honest.current.bind fun _ => ?_) hs) ht rfl rfl
    exact .bind (.updateBuilder (fun _ => rfl) fun _ => rfl) fun _ => .pure
  | emitAtBeginning => exact hnone ((touching_emitAtBeginning trivial).accounts hs) ht rfl rfl
  | pushLoop =>
    rw [gained_of_addsLoop rfl rfl]
    exact accounts_of_pushLoop h hs
  | retry =>
    cases hrescues : s.builder.rescues with
    | nil =>
      have hloop : Act.retry.addsLoop s = false := by rw [addsLoop, hrescues]; rfl
      exact hnone (accounts_run rfl hloop rfl hs) ht hloop rfl
    | cons frame frames =>
      rw [settled, run, retry_of_cons hrescues] at h
      obtain ⟨a, ht⟩ := (Uncatchable.tryAgain frame).runs_of_settled h
      rw [gained_of_addsLoop (by rw [addsLoop, hrescues]; rfl) rfl]
      exact Grants.tryAgain frame ht hs
  | zsuper block =>
    by_cases hr : (Act.zsuper block).refuses s
    · obtain ⟨v, hv⟩ := settled_discard h
      rw [gained_of_refuses rfl hr]
      exact accounts_of_refused hr hv hs
    · have hr := Bool.eq_false_iff.mpr hr
      exact hnone (accounts_run rfl rfl hr hs) ht rfl hr
  | _ => exact hnone (accounts_run rfl rfl rfl hs) ht rfl rfl

end Act

end ScopeIR
