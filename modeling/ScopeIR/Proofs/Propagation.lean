import Mathlib.Logic.Relation
import ScopeIR.Proofs.Marks

/-! Finishing a scope looks at its closures alone, which already know of theirs: what is marked in the
end is what can be reached through closure lists. -/

namespace ScopeIR

/-- A scope gives the flag to the scope that holds it as a closure. -/
def Registry.Hands (g : Registry) (c : ScopeId) (f : ScopeFlag) : Prop :=
  f = .canReceiveBreaks ∧ ((g.flags c).contains .usesEval ∨
    (g.flags c).contains .hasBreakInstrs ∨ (g.flags c).contains .canReceiveBreaks) ∨
  f = .canReceiveNonlocalReturns ∧ ((g.flags c).contains .usesEval ∨
    (g.flags c).contains .hasNonlocalReturns ∨ (g.flags c).contains .canReceiveNonlocalReturns) ∨
  f = .usesZSuper ∧ ((g.flags c).contains .usesEval ∨ (g.flags c).contains .usesZSuper)

namespace Workshop

open Registry Relation

variable {w w' : Workshop} {op : Op} {s c : ScopeId}

/-- The closure list of a finished scope names the other one. -/
def Names (w : Workshop) (s c : ScopeId) : Prop :=
  w.registry.Finished s ∧ c ∈ w.registry.closures s

/-- The scope was finished with a super call, or after one that found no method. -/
def CallsSuper (w : Workshop) (id : ScopeId) : Prop :=
  (∃ z, .zsuper z ∈ w.registry.stored id) ∨ id ∈ w.refusing

/-- Scopes that are finished by the step have only closures that were finished before. -/
def FinishesInOrder (final w w' : Workshop) : Prop :=
  ∀ id, w'.registry.Finished id → ¬ w.registry.Finished id →
    ∀ c ∈ final.registry.closures id, w.registry.Finished c

/-- What a closure list names in the end was finished before the scope, and no scope is added to a
finished one. -/
structure Sequenced (final w : Workshop) (op : Op) (w' : Workshop) : Prop where
  finishes : FinishesInOrder final w w'
  adds : ∀ p ∈ op.parent?, ¬ w.registry.Finished p

/-- The closure lists of finished scopes stay as they are. -/
def KeepsClosures (w : Workshop) (_ : Op) (w' : Workshop) : Prop :=
  ∀ id, w.registry.Finished id → w'.registry.closures id = w.registry.closures id

section Decidable

variable {final : Workshop}

instance : Decidable (FinishesInOrder final w w') :=
  inferInstanceAs (Decidable (∀ id, w'.registry.Finished id → ¬ w.registry.Finished id →
    ∀ c ∈ final.registry.closures id, w.registry.Finished c))

instance : Decidable (Sequenced final w op w') :=
  decidable_of_iff (FinishesInOrder final w w' ∧ ∀ p ∈ op.parent?, ¬ w.registry.Finished p)
    ⟨fun h => ⟨h.1, h.2⟩, fun h => ⟨h.1, h.2⟩⟩

instance : Decidable (KeepsClosures w op w') :=
  inferInstanceAs (Decidable (∀ id, w.registry.Finished id →
    w'.registry.closures id = w.registry.closures id))

end Decidable

/-- Every finished scope has the flags of its own and those that its closures give it. -/
structure Propagates (w : Workshop) : Prop extends w.Tracks where
  closures {s c : ScopeId} : w.Names s c → w.registry.Finished c
  marks {id : ScopeId} {x : Scope} {f : ScopeFlag} : w.registry.scope? id = some x →
    x.isFinished → f.isTracked →
      (x.flags.contains f ↔ Owns x.kind (x.instrs.getD []) (id ∈ w.refusing) f ∨
        ∃ c ∈ x.closures, ∃ y, w.registry.scope? c = some y ∧
          (Builder.closureFlags y).contains f)
  /-- Steps through closure lists end. -/
  acc {s : ScopeId} : w.registry.Finished s → Acc (fun c s => w.Names s c) s

namespace Propagates

theorem empty (config : Config) : (Workshop.empty config).Propagates where
  toTracks := .empty config
  closures h := by
    obtain ⟨⟨x, hx, -⟩, -⟩ := h
    cases hx
  marks h := nomatch h
  acc h := by
    obtain ⟨x, hx, -⟩ := h
    cases hx

theorem step (hw : w.Propagates) (h : w.Moves op w') (hfinishes : FinishesInOrder w' w w')
    (hkeeps : w.KeepsClosures op w') : w'.Propagates := by
  have hadvances := hw.toTracks.advances h
  -- a closure that was finished before the step gives the same flags after it
  have hflags : ∀ {c : ScopeId} {f : ScopeFlag}, w.registry.Finished c →
      ((∃ y, w'.registry.scope? c = some y ∧ (Builder.closureFlags y).contains f) ↔
        ∃ y, w.registry.scope? c = some y ∧ (Builder.closureFlags y).contains f) := by
    rintro c f ⟨x, hx, hfinished⟩
    obtain ⟨y, hy, hxy, -⟩ := hadvances.lasts hx hfinished
    simp only [hx, hy, Option.some.injEq, exists_eq_left', Builder.closureFlags_congr hxy.flags]
  have hnamed : ∀ {s c : ScopeId}, w'.Names s c → w.registry.Finished c := by
    rintro s c ⟨hs', hc⟩
    by_cases hs : w.registry.Finished s
    · exact hw.closures ⟨hs, hkeeps s hs ▸ hc⟩
    · exact hfinishes s hs' hs c hc
  have hacc : ∀ {s : ScopeId}, w.registry.Finished s → Acc (fun c s => w'.Names s c) s := by
    intro s hs
    have hold := hw.acc hs
    induction hold with
    | intro s _ ih =>
      exact .intro s fun c hc => ih c ⟨hs, hkeeps s hs ▸ hc.2⟩ (hnamed hc)
  refine ⟨hw.toTracks.step h, fun hc => hadvances.finished (hnamed hc), ?_,
    fun _ => .intro _ fun c hc => hacc (hnamed hc)⟩
  intro id y f hy hfinished hf
  have hclosures : w'.registry.closures id = y.closures := by rw [Registry.closures, hy]; rfl
  by_cases hid : w.registry.Finished id
  · have hkept := hkeeps id hid
    obtain ⟨x, hx, hfinished⟩ := hid
    obtain ⟨y', hy', hxy, hrefusing⟩ := hadvances.lasts hx hfinished
    obtain rfl := Option.some.inj (hy.symm.trans hy')
    have hx' : w.registry.closures id = x.closures := by rw [Registry.closures, hx]; rfl
    rw [hclosures, hx'] at hkept
    rw [hxy.flags, hxy.kind, hxy.instrs, hkept, hrefusing, hw.marks hx hfinished hf]
    refine or_congr_right (exists_congr fun c => and_congr_right fun hc => (hflags ?_).symm)
    exact hw.closures ⟨⟨x, hx, hfinished⟩, hx' ▸ hc⟩
  · rw [hadvances.marks hid hy hfinished hf]
    refine or_congr_right (exists_congr fun c => and_congr_right fun hc => (hflags ?_).symm)
    exact hfinishes id ⟨y, hy, hfinished⟩ hid c (hclosures ▸ hc)

/-- What closures hand on one step at a time comes from all that can be reached. -/
theorem transGen_iff (hw : w.Propagates) (mark own gives : ScopeId → Prop)
    (hmark : ∀ {s}, w.registry.Finished s →
      (mark s ↔ own s ∨ ∃ c, w.Names s c ∧ (gives c ∨ mark c)))
    (hs : w.registry.Finished s) :
    mark s ↔ own s ∨ ∃ c, TransGen w.Names s c ∧ (gives c ∨ own c) := by
  constructor
  · have hacc := hw.acc hs
    induction hacc with
    | intro s _ ih =>
      intro h
      refine ((hmark hs).mp h).imp_right fun ⟨c, hc, h⟩ => ?_
      rcases h with h | h
      · exact ⟨c, .single hc, .inl h⟩
      rcases ih c hc (hw.closures hc) h with h | ⟨d, hd, h⟩
      · exact ⟨c, .single hc, .inr h⟩
      · exact ⟨d, .head hc hd, h⟩
  · rintro (h | ⟨d, hd, h⟩)
    · exact (hmark hs).mpr (.inl h)
    · induction hd using TransGen.head_induction_on with
      | single hc =>
        refine (hmark hc.1).mpr (.inr ⟨d, hc, h.imp_right fun h => ?_⟩)
        exact (hmark (hw.closures hc)).mpr (.inl h)
      | @head s c hc _ ih =>
        exact (hmark hs).mpr (.inr ⟨c, hc, .inr (ih (hw.closures hc))⟩)

end Propagates

/-- Of the flags that closures hand on, instructions reveal only that of super calls. -/
theorem contains_scopeFlags {i : Instr} {f : ScopeFlag} (hf : f.isInherited) :
    i.scopeFlags.contains f ↔ f = .usesZSuper ∧ ∃ z, i = .zsuper z := by
  have hcases : f = .canReceiveBreaks ∨ f = .canReceiveNonlocalReturns ∨ f = .usesZSuper := by
    cases f <;> simp [ScopeFlag.isInherited] at hf ⊢
  have hnamed : ∀ name, ¬ (Instr.namedCallFlags name).contains f := by
    intro name
    unfold Instr.namedCallFlags
    rcases hcases with rfl | rfl | rfl <;> split_ifs <;> decide
  have hsingle : ∀ g : ScopeFlag, ¬ g.isInherited → ¬ ({g} : ScopeFlags).contains f := by
    intro g hg h
    obtain rfl := (FlagSet.contains_singleton g f).mp h
    exact hg hf
  cases i with
  | zsuper z =>
    rcases hcases with rfl | rfl | rfl <;>
      simp [Instr.scopeFlags, FlagSet.contains_insert, FlagSet.contains_singleton]
  | call c =>
    refine iff_of_false ?_ fun ⟨_, _, h⟩ => nomatch h
    rw [Instr.scopeFlags, FlagSet.contains_union, Bool.or_eq_true, not_or]
    refine ⟨hnamed _, ?_⟩
    split
    · exact hsingle _ (by decide)
    · simp [FlagSet.contains_empty]
  | receive r p =>
    cases p <;>
      simp [Instr.scopeFlags, FlagSet.contains_empty, hsingle .receivesKeywordArgs (by decide)]
  | breakOut => simp [Instr.scopeFlags, hsingle .hasBreakInstrs (by decide)]
  | nonlocalReturn => simp [Instr.scopeFlags, hsingle .hasNonlocalReturns (by decide)]
  | _ => simp [Instr.scopeFlags, FlagSet.contains_empty]

theorem owns_iff {id : ScopeId} {x : Scope} {f : ScopeFlag} (hx : w.registry.scope? id = some x)
    (hf : f.isInherited) : Owns x.kind (x.instrs.getD []) (id ∈ w.refusing) f ↔
      f = .usesZSuper ∧ w.CallsSuper id := by
  have hinitial : ¬ x.kind.initialFlags.contains f := by
    cases f <;> first | cases hf; done | (cases x.kind <;> decide)
  have hstored : w.registry.stored id = x.instrs.getD [] := by
    rw [stored, hx]
    rfl
  rw [Owns, or_iff_right hinitial, CallsSuper, hstored, and_or_left]
  refine or_congr_left ⟨?_, ?_⟩
  · rintro ⟨i, hi, h⟩
    obtain ⟨rfl, z, rfl⟩ := (contains_scopeFlags hf).mp h
    exact ⟨rfl, z, hi⟩
  · rintro ⟨rfl, z, hz⟩
    exact ⟨_, hz, (contains_scopeFlags hf).mpr ⟨rfl, z, rfl⟩⟩

/-- What a finished scope has from its own list, and what from each of its closures. -/
theorem Propagates.flags_iff {f : ScopeFlag} (hw : w.Propagates) (hs : w.registry.Finished s)
    (hf : f.isInherited) : (w.registry.flags s).contains f ↔
      (f = .usesZSuper ∧ w.CallsSuper s) ∨ ∃ c, w.Names s c ∧ w.registry.Hands c f := by
  obtain ⟨x, hx, hfinished⟩ := hs
  have hflags : w.registry.flags s = x.flags := by rw [Registry.flags, hx]; rfl
  have hclosures : w.registry.closures s = x.closures := by rw [Registry.closures, hx]; rfl
  have hs : w.registry.Finished s := ⟨x, hx, hfinished⟩
  have htracked : f.isTracked := by cases f <;> first | rfl | cases hf
  rw [hflags, hw.marks hx hfinished htracked, owns_iff hx hf]
  simp only [Names, hs, true_and, hclosures]
  refine or_congr_right (exists_congr fun c => and_congr_right fun hc => ?_)
  obtain ⟨y, hy, -⟩ := hw.closures ⟨hs, hclosures ▸ hc⟩
  have hy' : w.registry.flags c = y.flags := by rw [Registry.flags, hy]; rfl
  rw [Hands, hy', hy]
  simp only [Option.some.injEq, exists_eq_left', Builder.contains_closureFlags]

theorem closures_of_run {ops : List Op} {id : ScopeId} (hw : w.Tracks) (hid : w.registry.Finished id)
    (hrun : w.run ops = some w') (hkeeps : w.Throughout KeepsClosures ops) :
    w'.registry.closures id = w.registry.closures id := by
  refine (run_induction (I := fun v => v.Tracks ∧ v.registry.Finished id ∧
    v.registry.closures id = w.registry.closures id) ?_ ⟨hw, hid, rfl⟩ hrun hkeeps).2.2
  rintro v op v' ⟨hv, hid, hclosures⟩ h hkeeps
  exact ⟨hv.step h, (hv.advances h).finished hid, (hkeeps id hid).trans hclosures⟩

theorem Propagates.run {final : Workshop} {ops : List Op} (hw : w.Propagates)
    (hrun : w.run ops = some final) (hsequenced : w.Throughout (Sequenced final) ops)
    (hkeeps : w.Throughout KeepsClosures ops) : final.Propagates := by
  induction ops generalizing w with
  | nil =>
    cases hrun
    exact hw
  | cons op ops ih =>
    obtain ⟨w', hop, hrun⟩ := Option.bind_eq_some_iff.mp hrun
    unfold Throughout at hsequenced hkeeps
    rw [hop] at hsequenced hkeeps
    have hmoves := moves_of_step hop
    -- what the closure lists name in the end they name now
    have hfinishes : FinishesInOrder w' w w' := by
      intro id hid' hid c hc
      refine hsequenced.1.finishes id hid' hid c ?_
      rwa [closures_of_run (hw.toTracks.step hmoves) hid' hrun hkeeps.2]
    exact ih (hw.step hmoves hfinishes hkeeps.1) hrun hsequenced.2 hkeeps.2

/-- What a finished scope may receive, and whether it makes super calls, says whether some scope that
is reached from it through closure lists may cause this. -/
theorem flags_of_run {config : Config} {ops : List Op}
    (hrun : (Workshop.empty config).run ops = some w)
    (hsequenced : (Workshop.empty config).Throughout (Sequenced w) ops)
    (hkeeps : (Workshop.empty config).Throughout KeepsClosures ops)
    (hs : w.registry.Finished s) :
    ((w.registry.flags s).contains .canReceiveBreaks ↔ ∃ c, TransGen w.Names s c ∧
      ((w.registry.flags c).contains .hasBreakInstrs ∨
        (w.registry.flags c).contains .usesEval)) ∧
    ((w.registry.flags s).contains .canReceiveNonlocalReturns ↔ ∃ c, TransGen w.Names s c ∧
      ((w.registry.flags c).contains .hasNonlocalReturns ∨
        (w.registry.flags c).contains .usesEval)) ∧
    ((w.registry.flags s).contains .usesZSuper ↔ w.CallsSuper s ∨
      ∃ c, TransGen w.Names s c ∧ (w.CallsSuper c ∨ (w.registry.flags c).contains .usesEval)) := by
  have hw := (Propagates.empty config).run hrun hsequenced hkeeps
  let has (f : ScopeFlag) (c : ScopeId) : Prop := (w.registry.flags c).contains f
  refine ⟨?_, ?_, ?_⟩
  · have h := hw.transGen_iff (has .canReceiveBreaks) (fun _ => False)
      (fun c => has .hasBreakInstrs c ∨ has .usesEval c) (fun hs => ?_) hs
    · simpa only [false_or, or_false] using h
    · refine (hw.flags_iff hs rfl).trans (or_congr (by simp) (exists_congr fun c => ?_))
      simp [Hands, has, or_assoc, or_left_comm]
  · have h := hw.transGen_iff (has .canReceiveNonlocalReturns) (fun _ => False)
      (fun c => has .hasNonlocalReturns c ∨ has .usesEval c) (fun hs => ?_) hs
    · simpa only [false_or, or_false] using h
    · refine (hw.flags_iff hs rfl).trans (or_congr (by simp) (exists_congr fun c => ?_))
      simp [Hands, has, or_assoc, or_left_comm]
  · have h := hw.transGen_iff (has .usesZSuper) w.CallsSuper (has .usesEval)
      (fun hs => ?_) hs
    · simpa only [or_comm] using h
    · refine (hw.flags_iff hs rfl).trans (or_congr (by simp) (exists_congr fun c => ?_))
      simp [Hands, has]

/-- A block with a break inside of a block inside of a method. -/
def breakInInnerBlock : List Op :=
  [.newScope .method ⟨"m"⟩ "main.rb" 0 none, .openRoot ⟨0⟩,
    .newScope .closure ⟨"outer"⟩ "main.rb" 1 (some ⟨0⟩), .openInside 0 ⟨1⟩ false,
    .newScope .closure ⟨"inner"⟩ "main.rb" 2 (some ⟨1⟩), .openInside 1 ⟨2⟩ false,
    .act 2 (.break .nil), .finish 2, .finish 1, .finish 0]

theorem flags_of_run_breakInInnerBlock : ∃ w, (Workshop.empty {}).run breakInInnerBlock = some w ∧
    (w.registry.flags ⟨0⟩).contains .canReceiveBreaks ∧ ∃ c, TransGen w.Names ⟨0⟩ c ∧
      ((w.registry.flags c).contains .hasBreakInstrs ∨
        (w.registry.flags c).contains .usesEval) := by
  have hrun : ((Workshop.empty {}).run breakInInnerBlock).isSome := by decide +kernel
  have hfacts : ∀ v ∈ (Workshop.empty {}).run breakInInnerBlock,
      (Workshop.empty {}).Throughout (Sequenced v) breakInInnerBlock ∧
      (Workshop.empty {}).Throughout KeepsClosures breakInInnerBlock ∧
      v.registry.Finished ⟨0⟩ ∧ (v.registry.flags ⟨0⟩).contains .canReceiveBreaks := by
    decide +kernel
  obtain ⟨w, hw⟩ := Option.isSome_iff_exists.mp hrun
  obtain ⟨hsequenced, hkeeps, hs, hmark⟩ := hfacts w hw
  exact ⟨w, hw, hmark, (flags_of_run hw hsequenced hkeeps hs).1.mp hmark⟩

/-- A finished method is opened again, for an ensure body that is given a block with a break. -/
def reopened : List Op :=
  let frame : EnsureFrame :=
    ⟨⟨"LBL", 0⟩, ⟨"LBL", 1⟩, ⟨"LBL", 2⟩, ⟨"LBL", 3⟩, .unrescued, none, []⟩
  let each : Call :=
    ⟨.normal, some (.temp (.plain 9)), ⟨"each"⟩, .nil, [], .closure ⟨1⟩, ∅, false⟩
  let body : EnsureFrame := { frame with instrs := [.call each] }
  [.newScope .method ⟨"t"⟩ "main.rb" 0 none,
    .newScope .closure ⟨"c"⟩ "main.rb" 1 (some ⟨0⟩), .openRoot ⟨1⟩, .act 0 (.break .nil), .finish 0,
    .newScope .method ⟨"s"⟩ "main.rb" 2 none, .openRoot ⟨2⟩, .finish 1,
    .openRoot ⟨2⟩, .act 2 .newEnsure, .act 2 (.enterEnsureBody frame), .act 2 (.emit (.call each)),
    .act 2 .exitEnsureBody, .act 2 (.pushEnsure body), .act 2 .popEnsure, .act 2 (.copyEnsure body)]

/-- Closures that are registered in a finished scope do not mark it. -/
theorem unmarked_of_reopened : ∃ w, (Workshop.empty {}).run reopened = some w ∧
    (Workshop.empty {}).Throughout (Sequenced w) reopened ∧ w.Names ⟨2⟩ ⟨1⟩ ∧
      (w.registry.flags ⟨1⟩).contains .hasBreakInstrs ∧
        ¬ (w.registry.flags ⟨2⟩).contains .canReceiveBreaks := by
  have hrun : ((Workshop.empty {}).run reopened).isSome := by decide +kernel
  have hfacts : ∀ v ∈ (Workshop.empty {}).run reopened,
      (Workshop.empty {}).Throughout (Sequenced v) reopened ∧
      (v.registry.Finished ⟨2⟩ ∧ ⟨1⟩ ∈ v.registry.closures ⟨2⟩) ∧
      (v.registry.flags ⟨1⟩).contains .hasBreakInstrs ∧
      ¬ (v.registry.flags ⟨2⟩).contains .canReceiveBreaks := by
    decide +kernel
  obtain ⟨w, hw⟩ := Option.isSome_iff_exists.mp hrun
  exact ⟨w, hw, hfacts w hw⟩

end Workshop

end ScopeIR
