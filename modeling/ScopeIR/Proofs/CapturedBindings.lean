import ScopeIR.Proofs.FinalFlags

/-! Which scopes must keep their variables for the blocks that they pass. A call that passes a literal
block reveals that the block can get at them. A super call that passes one does not, although its block is
registered in the same way. -/

namespace ScopeIR

namespace Instr

variable {i : Instr}

theorem contains_scopeFlags_call (c : Call) :
    (call c).scopeFlags.contains .canCaptureCallersBinding ↔ c.block.closure?.isSome := by
  have hname : ¬ (namedCallFlags c.name.text).contains .canCaptureCallersBinding := fun h =>
    absurd (contains_namedCallFlags h) (by decide)
  rw [scopeFlags_call, FlagSet.contains_union, Bool.or_eq_true, or_iff_right hname]
  cases c.block.closure? with
  | none => rw [Option.elim_none, FlagSet.contains_empty, Option.isSome_none]
  | some id => exact iff_of_true ((FlagSet.contains_singleton _ _).mpr rfl) rfl

/-- Of all instructions that pass a literal block, only super calls do not say that it can get at the
variables of the scope. -/
theorem contains_scopeFlags_iff : i.scopeFlags.contains .canCaptureCallersBinding ↔
    i.closure?.isSome ∧ ∀ z, i ≠ .zsuper z := by
  by_cases hcall : ∃ c, i = .call c
  · obtain ⟨c, rfl⟩ := hcall
    rw [contains_scopeFlags_call, closure?_call]
    exact (and_iff_left fun _ h => nomatch h).symm
  · refine iff_of_false (fun h => ?_) fun ⟨hblock, hzsuper⟩ => ?_
    · exact absurd (contains_scopeFlags_of_not_call (not_exists.mp hcall) h) (by decide)
    · cases i with
      | call c => exact hcall ⟨c, rfl⟩
      | zsuper z => exact hzsuper z rfl
      | _ => cases hblock

end Instr

theorem contains_shown_iff {list : List Instr} : (shown list).contains .canCaptureCallersBinding ↔
    ∃ i ∈ list, i.closure?.isSome ∧ ∀ z, i ≠ .zsuper z := by
  simp only [shown, FlagSet.contains_joined, Instr.contains_scopeFlags_iff]

namespace Workshop

open Session

variable {w w₀ : Workshop} {ds : List Doing} {place : Nat} {id : ScopeId} {kind : ScopeKind}
  {list : List Instr} {config : Config}

/-- A flag that is not a consequence of others is stored exactly when it is known. -/
theorem contains_completed {known : ScopeFlags} {f : ScopeFlag} (hf : f ≠ .requiresDynscope) :
    (if known.needsDynscope then known ∪ {.requiresDynscope} else known : ScopeFlags).contains f ↔
      known.contains f := by
  split
  · rw [FlagSet.contains_union, Bool.or_eq_true, FlagSet.contains_singleton]
    exact or_iff_left hf.symm
  · rfl

/-- Nobody can insert flags on a scope that is finished. -/
theorem insertedOn_of_isFinished {x : Scope} (hw : w.Staffed ⟨False, False⟩)
    (hx : w.registry.scope? id = some x) (hfinished : x.isFinished) {u : Workshop}
    (hrun : w.performAll ds = some u) : insertedOn id ds = ∅ := by
  induction ds generalizing w x with
  | nil => rfl
  | cons d ds ih =>
    obtain ⟨v, hd, hrun⟩ := Option.bind_eq_some_iff.mp hrun
    have heffect := effect_of_perform hw (honours_nothing w [d]).1 hd
    obtain ⟨-, -, y, hy, hyfinished⟩ := heffect.advances.sealed hx hfinished
    have hnone : d.inserted id = ∅ := by
      cases d with
      | op => rfl
      | insertFlags scope flags =>
        -- on this scope it would end the run
        refine if_neg fun hscope => ?_
        subst hscope
        obtain ⟨⟨⟨⟩, _⟩, hchange, -⟩ := Option.map_eq_some_iff.mp hd
        obtain ⟨_, hinsert, -⟩ := change_eq_some.mp hchange
        cases (Registry.insertFlags_of_isFinished hx hfinished flags).symm.trans hinsert
    rw [insertedOn, FlagSet.joined, hnone, FlagSet.empty_union]
    exact ih (hw.effect heffect) hy hyfinished hrun

/-- All that is inserted on a scope in a run was inserted before the scope was finished. -/
theorem insertedOn_eq_of_finishes {u : Workshop} {d : Doing} {before after : List Doing}
    (hrun : (Workshop.empty config).performAll (before ++ d :: after) = some w)
    (hbefore : (Workshop.empty config).performAll before = some u) (hfinish : u.Finishes d id) :
    insertedOn id (before ++ d :: after) = insertedOn id before := by
  have hempty : (Workshop.empty config).Staffed ⟨False, False⟩ := .empty config
  have hu := (advances_of_run hempty hbefore (honours_nothing _ _)).1
  rw [performAll_append hbefore] at hrun
  obtain ⟨v, hd, hafter⟩ := Option.bind_eq_some_iff.mp hrun
  have heffect := effect_of_perform hu (honours_nothing u [d]).1 hd
  obtain ⟨x, hx, hfinished, -⟩ := heffect.stores hfinish
  have hnone : d.inserted id = ∅ := by
    obtain ⟨_, _, _, rfl, -⟩ := hfinish
    rfl
  rw [insertedOn, FlagSet.joined_append, FlagSet.joined, hnone, FlagSet.empty_union, ← insertedOn,
    ← insertedOn, insertedOn_of_isFinished (hu.effect heffect) hx hfinished hafter,
    FlagSet.union_empty]

/-- A scope that is finished in the course of a run is marked as one whose variables a block can get at
exactly when it was told so from outside or a call in its list passes a literal block. It then keeps a
dynamic scope. Super calls do not count, whatever they pass. -/
theorem binding_of_finishedIn (hrun : (Workshop.empty config).performAll ds = some w)
    (h : (Workshop.empty config).FinishedIn ds id) :
    ∃ list, w.registry.list? id = some list ∧
      ((w.registry.flags id).contains .canCaptureCallersBinding ↔
        (insertedOn id ds).contains .canCaptureCallersBinding ∨
          ∃ i ∈ list, i.closure?.isSome ∧ ∀ z, i ≠ .zsuper z) ∧
      ((w.registry.flags id).contains .canCaptureCallersBinding →
        (w.registry.flags id).contains .requiresDynscope) := by
  obtain ⟨before, d, after, u, rfl, hbefore, hfinish⟩ := h
  obtain ⟨place, k, t, rfl, hk, hruns⟩ := hfinish
  have hfinish : u.Finishes (.op (.finish place)) id := ⟨place, k, t, rfl, hk, hruns⟩
  obtain ⟨v, x, _, hv, hx, -, -, -, hlist, hflags⟩ := sealed_of_finish hrun hbefore hfinish
  obtain ⟨v', y, list, known, hv', hy, hinstrs, hknown, hyflags⟩ := stored_of_finishes hbefore hfinish
  obtain rfl := Option.some.inj (hv.symm.trans hv')
  obtain rfl := Option.some.inj (hx.symm.trans hy)
  have hstored : x.flags.contains .canCaptureCallersBinding ↔
      known.contains .canCaptureCallersBinding := by
    rw [hyflags]
    exact contains_completed (by decide)
  rw [hlist, hflags, hstored, insertedOn_eq_of_finishes hrun hbefore hfinish]
  refine ⟨list, hinstrs, ?_, fun hcaptures => ?_⟩
  · rw [hknown, contains_knownFlags_iff (by decide), contains_shown_iff]
  · have hneeds : known.needsDynscope := List.any_eq_true.mpr ⟨_, by decide, hcaptures⟩
    rw [hyflags, if_pos hneeds, FlagSet.contains_union, Bool.or_eq_true]
    exact .inr (by decide)

/-- Two methods, with one block each. The first passes its block in a call and in a super call, the second
in a super call only. -/
def blockPassers : List Doing :=
  [.op (.newScope .method ⟨"m"⟩ "main.rb" 0 none),
    .op (.newScope .closure ⟨"_CLOSURE_"⟩ "main.rb" 1 (some ⟨0⟩)),
    .op (.newScope .method ⟨"n"⟩ "main.rb" 2 none),
    .op (.newScope .closure ⟨"_CLOSURE_"⟩ "main.rb" 3 (some ⟨2⟩)),
    .op (.openRoot ⟨0⟩), .op (.openRoot ⟨2⟩),
    .op (.act 0 (.call (.temp (.plain 7)) .normal (.var .self) ⟨"each"⟩ [] (.closure ⟨1⟩) ∅)),
    .op (.act 0 (.zsuper (.closure ⟨1⟩))), .op (.act 1 (.zsuper (.closure ⟨3⟩)))]

theorem binding_of_finishedIn_blockPassers : ∃ w ∈ (Workshop.empty {}).performAll
      (blockPassers ++ [.op (.finish 0), .op (.finish 1)]), ∃ c z z',
    c.block = .closure ⟨1⟩ ∧ z'.block = .closure ⟨3⟩ ∧
    w.registry.list? ⟨0⟩ = some [.call c, .zsuper z] ∧
    (w.registry.flags ⟨0⟩).contains .canCaptureCallersBinding ∧
    (w.registry.flags ⟨0⟩).contains .requiresDynscope ∧
    w.registry.list? ⟨2⟩ = some [.zsuper z'] ∧
    ¬ (w.registry.flags ⟨2⟩).contains .canCaptureCallersBinding := by
  let c : Call := ⟨.normal, some (.temp (.plain 7)), ⟨"each"⟩, .var .self, [], .closure ⟨1⟩, ∅, false⟩
  let z : ZSuper := ⟨⟨0⟩, .temp (.plain 0), .var .self, [], .closure ⟨1⟩, ∅, false⟩
  let z' : ZSuper := ⟨⟨2⟩, .temp (.plain 0), .var .self, [], .closure ⟨3⟩, ∅, false⟩
  have hlists : ∃ w ∈ (Workshop.empty {}).performAll
        (blockPassers ++ [.op (.finish 0), .op (.finish 1)]),
      w.registry.list? ⟨0⟩ = some [.call c, .zsuper z] ∧ w.registry.list? ⟨2⟩ = some [.zsuper z'] := by
    decide +kernel
  have hfirst : ∃ u ∈ (Workshop.empty {}).performAll blockPassers, ∃ k ∈ u.worker? 0,
      (finish (u.session k)).1.toOption = some ⟨0⟩ := by
    decide +kernel
  have hsecond : ∃ u ∈ (Workshop.empty {}).performAll (blockPassers ++ [.op (.finish 0)]),
      ∃ k ∈ u.worker? 1, (finish (u.session k)).1.toOption = some ⟨2⟩ := by
    decide +kernel
  have houtside : ¬ (insertedOn ⟨2⟩ (blockPassers ++ [.op (.finish 0), .op (.finish 1)])).contains
      .canCaptureCallersBinding := by
    decide +kernel
  obtain ⟨w, hw, hlist₀, hlist₂⟩ := hlists
  obtain ⟨u, hu, k, hk, hok⟩ := hfirst
  obtain ⟨u', hu', k', hk', hok'⟩ := hsecond
  obtain ⟨list, hlist, hiff, hrequires⟩ := binding_of_finishedIn hw
    ⟨blockPassers, _, [.op (.finish 1)], u, rfl, hu, finishes_of_toOption hk hok⟩
  obtain ⟨list', hlist', hiff', -⟩ := binding_of_finishedIn hw
    ⟨blockPassers ++ [.op (.finish 0)], _, [], u', rfl, hu', finishes_of_toOption hk' hok'⟩
  obtain rfl := Option.some.inj (hlist.symm.trans hlist₀)
  obtain rfl := Option.some.inj (hlist'.symm.trans hlist₂)
  have hexposed : (w.registry.flags ⟨0⟩).contains .canCaptureCallersBinding :=
    hiff.mpr (.inr ⟨.call c, List.mem_cons_self, rfl, fun _ h => nomatch h⟩)
  refine ⟨w, hw, c, z, z', rfl, rfl, hlist₀, hexposed, hrequires hexposed, hlist₂, fun h => ?_⟩
  rcases hiff'.mp h with h | ⟨i, hi, -, hne⟩
  · exact houtside h
  · exact hne z' (List.mem_singleton.mp hi)

end Workshop

end ScopeIR
