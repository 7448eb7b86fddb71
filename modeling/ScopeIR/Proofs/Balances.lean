import ScopeIR.Proofs.Requests

/-! Operations that take bodies, by what they spend: if the bodies write all temporaries that they
take, or enter them, then so do the operations. -/

namespace ScopeIR

/-- What the builder works on, and the block that it loads, are the same. -/
structure Builder.Reopens (b c : Builder) : Prop where
  scope : c.scope = b.scope
  borrowsTemps : c.borrowsTemps = b.borrowsTemps
  needsYieldBlock : c.needsYieldBlock = b.needsYieldBlock
  yieldClosure : c.yieldClosure = b.yieldClosure

namespace Session

variable {s t u : Session} {x : Scope} {owed owed₁ owed₂ : List Variable} {k k' k'' l : Ledger}
  {xs ys : List Instr} {vs : List Variable} {r : Variable} {o : Operand}

section Reopening

/-- Only a loop whose result is owed may be opened. -/
theorem spends_of_reopens {b : Builder} (hb : s.builder.Reopens b)
    (hloops : ∀ f ∈ b.loops, f ∈ s.builder.loops ∨ f.result ∈ owed) :
    s.Spends x owed { s with builder := b } owed [] {} := by
  have habides : s.Abides { s with builder := b } := ⟨.refl _, rfl, hb.scope, hb.borrowsTemps⟩
  refine ⟨habides, fun _ _ _ _ => rfl, fun hn => ?_, fun hv => hb.yieldClosure.trans hv, ?_, .inl,
    ?_, fun hv => absurd hv List.not_mem_nil, fun hv => absurd hv List.not_mem_nil,
    fun hv => absurd hv List.not_mem_nil, fun hv => absurd hv List.not_mem_nil⟩
  · rw [hb.needsYieldBlock, hb.yieldClosure, hn]
  · rintro v (hv | ⟨f, hf, rfl⟩ | hv)
    · exact .inl (.inl hv)
    · rcases hloops f hf with hf | hf
      · exact .inl (.inr (.inl ⟨f, hf, rfl⟩))
      · exact .inl (.inl hf)
    · exact .inl (.inr (.inr (hb.yieldClosure.symm.trans hv)))
  · rintro v ⟨i, -, hlo, hhi⟩
    rw [temps, habides.tempScope] at hhi
    exact absurd hhi (Nat.not_lt.mpr hlo)

/-- The stacks may be different. -/
theorem fills_of_stacks {rescues : List RescueFrame} {ensures : List EnsureFrame}
    {rescuers : List Label} {loops : List LoopFrame}
    (h : t = { s with builder := { s.builder with rescues, ensures, rescuers, loops } })
    (hloops : ∀ f ∈ loops, f ∈ s.builder.loops ∨ f.result ∈ owed) :
    s.Fills x owed t owed [] {} := by
  refine ⟨.of_stacks h, ?_⟩
  rw [h]
  exact spends_of_reopens ⟨rfl, rfl, rfl, rfl⟩ hloops

end Reopening

/-- What is added writes what is taken, and the ledger is kept. -/
def Settles (x : Scope) (s : Session) (owed : List Variable) (k : Ledger) (t : Session)
    (owed' : List Variable) (k' : Ledger) : Prop :=
  ∃ xs l, k' = k ++ l ∧ s.Fulfils x owed t owed' xs l

namespace Settles

theorem minds (h : s.Settles x owed k t owed₁ k') (hs : s.Minds x owed) : t.Minds x owed₁ := by
  obtain ⟨xs, l, -, h⟩ := h
  exact h.minds hs

theorem trans (hs : s.Minds x owed) (h : s.Settles x owed k t owed₁ k')
    (h' : t.Settles x owed₁ k' u owed₂ k'') : s.Settles x owed k u owed₂ k'' := by
  obtain ⟨xs, l, rfl, h⟩ := h
  obtain ⟨ys, l', rfl, h'⟩ := h'
  exact ⟨xs ++ ys, l ++ l', Ledger.append_assoc, h.trans hs h'⟩

theorem temps_le (h : s.Settles x owed k t owed₁ k') : s.temps ≤ t.temps := by
  obtain ⟨xs, l, -, h⟩ := h
  exact h.spends.toAbides.temps_le

/-- What was taken may be returned. -/
theorem returning (h : s.Settles x owed k t owed k') {vs : List Variable}
    (hvs : ∀ i, x.temp i ∈ vs → i.toNat < t.temps) :
    s.Settles x owed k t owed (k' ++ { returned := vs }) := by
  obtain ⟨xs, l, rfl, h⟩ := h
  refine ⟨xs, _, Ledger.append_assoc, h.emits.fulfils ?_⟩
  exact h.spends.enter (fun _ => id) (fun _ => .inl) (fun _ => .inl)
    (fun _ hv => absurd hv List.not_mem_nil) hvs fun _ hv => absurd hv List.not_mem_nil

end Settles

theorem Clears.settles (h : s.Clears x owed t owed₁) : s.Settles x owed k t owed₁ k := by
  obtain ⟨xs, h⟩ := h
  exact ⟨xs, {}, Ledger.append_empty.symm, h⟩

section Opening

variable {v v' : Unit}

/-- The result of a loop is owed from its begin on. -/
theorem fills_of_opensLoop {frame : LoopFrame} {setResult : Label} {u₁ u₂ : Session}
    (hs : s.Minds x owed) (hpush : s.Runs pushLoop frame u₁) (hset : u₁.Runs newLabel setResult u₂)
    (hlabel : u₂.Runs (emit (.label frame.loopStart)) v t) : s.OpensLoop t frame setResult ∧
      s.Takes x t frame.result ∧
      s.Fills x owed t (frame.result :: owed) [.label frame.loopStart] {} := by
  have hopen := opensLoop_of_runs hpush hset hlabel
  simp only [pushLoop, runs_bind, runs_current, runs_updateBuilder, runs_pure] at hpush
  obtain ⟨_, _, ⟨rfl, rfl⟩, _, s₁, hnext, _, s₂, h₂, _, s₃, h₃, _, s₄, h₄, _, s₅, h₅, r, s₆, hr, _,
    s₇, hflags, _, s₈, hopens, hframe, rfl⟩ := hpush
  rw [← hframe] at hopens
  obtain rfl : frame.result = r := by rw [hframe]
  have h₁ : s.Spends x owed s₁ owed [] {} :=
    hnext ▸ spends_of_reopens ⟨rfl, rfl, rfl, rfl⟩ fun _ => .inl
  have hs₁ := h₁.minds hs
  have h₂ := fulfils_of_newLabelNamed hs₁ h₂
  have h₃ := h₂.trans hs₁ (fulfils_of_newLabelNamed (h₂.minds hs₁) h₃)
  have h₄ := h₃.trans hs₁ (fulfils_of_newLabelNamed (h₃.minds hs₁) h₄)
  have h₅ := h₄.trans hs₁ (fulfils_of_newLabelNamed (h₄.minds hs₁) h₅)
  have hnext := takesNext_of_temp (h₅.minds hs₁) hr
  have h₆ : s₁.Fulfils x owed s₆ (frame.result :: owed) [] {} := h₅.trans hs₁ hnext.fulfils
  have h₇ := h₆.trans hs₁ (fulfils_of_insertFlags (h₆.minds hs₁) hflags)
  have hs₇ := h₇.minds hs₁
  -- the loop may be open as long as its result is owed
  have h₈ : s₇.Fills x (frame.result :: owed) s₈ (frame.result :: owed) [] {} := by
    refine fills_of_stacks hopens fun f hf => ?_
    rcases List.mem_cons.mp hf with rfl | hf
    · exact .inr List.mem_cons_self
    · exact .inl hf
  have h₉ := fulfils_of_newLabel (h₈.minds hs₇) hset
  have ht := h₉.trans (h₈.minds hs₇) (fulfils_of_emit (h₉.minds (h₈.minds hs₇)) hlabel rfl)
  refine ⟨hopen, ?_, hopen.toAdds,
    h₁.trans hs (h₇.spends.trans hs₁ (h₈.spends.trans hs₇ ht.spends))⟩
  obtain ⟨i, hi, -⟩ := hnext.takes
  have hge := hopen.result_ge
  have hlt := hopen.result_lt
  rw [hi, Scope.index_temp] at hge hlt
  exact ⟨i, hi, hge, hlt⟩

theorem fills_of_popLoop {frame : Option LoopFrame} (h : s.Runs popLoop frame t) :
    s.Fills x owed t owed [] {} :=
  fills_of_stacks (runs_popLoop.mp h).2 fun _ hf => .inl (List.mem_of_mem_tail hf)

/-- The result of a rescue is owed from its begin on. -/
theorem fills_of_opensRescue {saved : Variable} {entry rescuer : Label}
    {u₁ u₂ u₃ u₄ u₅ u₆ u₇ u₈ : Session} {v₁ v₂ v₃ v₄ : Unit} {after : Label} (hs : s.Minds x owed)
    (hsaved : s.Runs temp saved u₁)
    (hglobal : u₁.Runs (emit (.getGlobal saved BuildT.currentException)) v₁ u₂)
    (hentry : u₂.Runs newLabel entry u₃) (hrescuer : u₃.Runs newLabel rescuer u₄)
    (hafter : u₄.Runs newLabel after u₅) (hlabel : u₅.Runs (emit (.label entry)) v₂ u₆)
    (hstart : u₆.Runs (emit (.regionStart rescuer)) v₃ u₇)
    (hpush : u₇.Runs (pushRescuer rescuer) v₄ u₈) (hresult : u₈.Runs temp r t) :
    s.Takes x t r ∧ ∃ xs, s.Fills x owed t (r :: owed) xs {} := by
  have h₂ := (fulfils_of_temp_emit hs hsaved hglobal rfl).2
  have h₃ := h₂.trans hs (fulfils_of_newLabel (h₂.minds hs) hentry)
  have h₄ := h₃.trans hs (fulfils_of_newLabel (h₃.minds hs) hrescuer)
  have h₅ := h₄.trans hs (fulfils_of_newLabel (h₄.minds hs) hafter)
  have h₆ := h₅.trans hs (fulfils_of_emit (h₅.minds hs) hlabel rfl)
  have h₇ := h₆.trans hs (fulfils_of_emit (h₆.minds hs) hstart rfl)
  have hpush : u₇.Fills x owed u₈ owed [] {} :=
    fills_of_stacks (runs_updateBuilder.mp hpush) fun _ => .inl
  have h₈ := h₇.toFills.trans hs hpush
  have hnext := takesNext_of_temp (h₈.minds hs) hresult
  exact ⟨hnext.takes.right h₈.spends.toAbides.temps_le, _, h₈.trans hs hnext.fulfils.toFills⟩

/-- The result has a value when the handler begins, but is owed another one. -/
theorem fills_of_entersHandler {label : Option Label} {exception : Variable} {value : Operand}
    {rescuer after : Label} {frame : RescueFrame} {u₁ u₂ u₃ u₄ u₅ u₆ u₇ : Session}
    {v₁ v₂ v₃ v₄ v₅ v₆ : Unit} (hs : s.Minds x (r :: owed)) (hend : s.Runs (emit .regionEnd) v₁ u₁)
    (hpop : u₁.Runs popRescuer label u₂) (hcopy : u₂.Runs (emit (.copy r value)) v₂ u₃)
    (hjump : u₃.Runs (jump after) v₃ u₄) (hlabel : u₄.Runs (emit (.label rescuer)) v₄ u₅)
    (hexception : u₅.Runs temp exception u₆)
    (hreceive : u₆.Runs (emit (.receiveException exception)) v₅ u₇)
    (hpush : u₇.Runs (pushRescue frame) v₆ t) :
    ∃ xs, s.Fills x (r :: owed) t (r :: owed) xs {} := by
  have h₁ := fulfils_of_emit hs hend rfl
  have hpop : u₁.Fills x (r :: owed) u₂ (r :: owed) [] {} :=
    fills_of_stacks (runs_popRescuer.mp hpop).2 fun _ => .inl
  have h₂ := h₁.toFills.trans hs hpop
  have h₃ := h₂.trans hs (pays_of_emit (h₂.minds hs) hcopy (fun j hj => .inl (by
    rw [← Option.some.inj hj]
    exact List.mem_cons_self)) (fun _ => id) fun _ => .inl).toFills
  have h₄ := h₃.trans hs (fulfils_of_emit (h₃.minds hs) hjump rfl).toFills
  have h₅ := h₄.trans hs (fulfils_of_emit (h₄.minds hs) hlabel rfl).toFills
  have h₆ := h₅.trans hs (fulfils_of_temp_emit (h₅.minds hs) hexception hreceive rfl).2.toFills
  have hpush : u₇.Fills x (r :: owed) t (r :: owed) [] {} :=
    fills_of_stacks (runs_updateBuilder.mp hpush) fun _ => .inl
  exact ⟨_, h₆.trans hs hpush⟩

theorem fills_of_leavesHandler {frame : Option RescueFrame} {handled : Operand} {after : Label}
    {u₁ u₂ : Session} {v₁ v₂ : Unit} (hs : s.Minds x (r :: owed)) (hpop : s.Runs popRescue frame u₁)
    (hcopy : u₁.Runs (emit (.copy r handled)) v₁ u₂)
    (hlabel : u₂.Runs (emit (.label after)) v₂ t) : ∃ xs, s.Fills x (r :: owed) t owed xs {} := by
  have h₁ : s.Fills x (r :: owed) u₁ (r :: owed) [] {} :=
    fills_of_stacks (runs_popRescue.mp hpop).2 fun _ => .inl
  have h₂ := h₁.trans hs (fulfils_of_result (h₁.minds hs) hcopy rfl).toFills
  exact ⟨_, h₂.trans hs (fulfils_of_emit (h₂.minds hs) hlabel rfl).toFills⟩

/-- What is held is still held, unless it was owed. -/
theorem Spends.holds {v : Variable} (h : s.Spends x owed₁ t owed₂ vs l)
    (hloops : t.builder.loops = s.builder.loops) (hv : s.Holds owed v) : t.Holds owed v := by
  rcases hv with hv | hv | hv
  · exact .inl hv
  · exact .inr (.inl (hloops ▸ hv))
  · exact .inr (.inr (h.yields hv))

theorem fulfils_of_newEnsure {frame : EnsureFrame} (hs : s.Minds x owed)
    (h : s.Runs newEnsure frame t) :
    s.Fulfils x owed t owed [] {} ∧ t.builder = s.builder := by
  simp only [newEnsure, runs_bind, runs_current, runs_pure] at h
  obtain ⟨_, u₁, h₁, _, u₂, h₂, _, u₃, h₃, _, u₄, h₄, _, _, ⟨rfl, rfl⟩, -, rfl⟩ := h
  have hbuilder {s t : Session} {l : Label} (h : s.Runs newLabel l t) : t.builder = s.builder := by
    obtain ⟨_, -, rfl⟩ := runs_newLabelNamed.mp h
    rfl
  refine ⟨?_, by rw [hbuilder h₄, hbuilder h₃, hbuilder h₂, hbuilder h₁]⟩
  have h₁ := fulfils_of_newLabel hs h₁
  have h₂ := h₁.trans hs (fulfils_of_newLabel (h₁.minds hs) h₂)
  have h₃ := h₂.trans hs (fulfils_of_newLabel (h₂.minds hs) h₃)
  exact h₃.trans hs (fulfils_of_newLabel (h₃.minds hs) h₄)

theorem spends_of_entering {frame : EnsureFrame} (hs : s.Minds x owed)
    (h : s.Runs newEnsure frame t) : s.Spends x owed (t.entering frame) owed [] {} := by
  obtain ⟨h, -⟩ := fulfils_of_newEnsure hs h
  have henter : t.Spends x owed (t.entering frame) owed [] {} :=
    spends_of_reopens ⟨rfl, rfl, rfl, rfl⟩ fun _ => .inl
  exact h.spends.trans hs henter

/-- What a body takes is owed while its instructions are kept back. -/
theorem fulfils_of_keepsBack {s₁ s₂ : Session} {frame : EnsureFrame} (hs : s.Minds x owed)
    (hframe : s.Runs newEnsure frame s₁) (h : (s₁.entering frame).Fulfils x owed s₂ owed ys l) :
    s₂.builder.ensureBodies.head? = some (frame.filled ys) ∧
      ∃ news, s.Fulfils x owed s₂.leaving (news ++ owed) [] { l with written := [] } ∧
        (∀ v ∈ news, v ∈ results ys) ∧
        ∀ i, x.temp i ∈ results ys →
          x.temp i ∈ l.written ∨ s.Holds (news ++ owed) (x.temp i) := by
  have hnew := newEnsure_of_newEnsure hframe
  obtain ⟨-, hbuilder⟩ := fulfils_of_newEnsure hs hframe
  obtain ⟨hleave, hhead⟩ := h.emits.leaving
  rw [hnew.instrs_eq, List.nil_append] at hhead
  have henter := spends_of_entering hs hframe
  obtain ⟨news, hwithheld, hnews, hknown⟩ := h.spends.withhold
  have hback : s₂.Spends x (news ++ owed) s₂.leaving (news ++ owed) [] {} :=
    spends_of_reopens ⟨rfl, rfl, rfl, rfl⟩ fun _ => .inl
  have hall := henter.trans hs (hwithheld.trans (henter.minds hs) hback)
  refine ⟨hhead, news, (hnew.toEmits.trans hleave).fulfils ?_, hnews, fun i hi => ?_⟩
  · rw [Ledger.empty_append, Ledger.append_empty] at hall
    exact hall
  · rcases hknown i hi with hi | hi | hi
    · exact .inr (.inl (List.mem_append_left _ hi))
    · exact .inl hi
    · refine .inr (Holds.mono ?_ fun _ => List.mem_append_right _)
      simp only [Holds, entering, hbuilder] at hi
      exact hi

/-- The result of a region is owed from its begin on. -/
theorem fills_of_opensRegion {u₁ u₂ u₃ u₄ : Session} {frame : EnsureFrame} {v₁ v₂ v₃ v₄ : Unit}
    (hs : s.Minds x owed) (hpush : s.Runs (pushEnsure frame) v₁ u₁)
    (hlabel : u₁.Runs (emit (.label frame.regionStart)) v₂ u₂)
    (hstart : u₂.Runs (emit (.regionStart frame.dummyRescue)) v₃ u₃)
    (hrescuer : u₃.Runs (pushRescuer frame.dummyRescue) v₄ u₄) (hresult : u₄.Runs temp r t) :
    s.Takes x t r ∧ ∃ xs, s.Fills x owed t (r :: owed) xs {} := by
  have h₁ : s.Fills x owed u₁ owed [] {} :=
    fills_of_stacks (runs_updateBuilder.mp hpush) fun _ => .inl
  have h₂ := h₁.trans hs (fulfils_of_emit (h₁.minds hs) hlabel rfl).toFills
  have h₃ := h₂.trans hs (fulfils_of_emit (h₂.minds hs) hstart rfl).toFills
  have hrescuer : u₃.Fills x owed u₄ owed [] {} :=
    fills_of_stacks (runs_updateBuilder.mp hrescuer) fun _ => .inl
  have h₄ := h₃.trans hs hrescuer
  have hnext := takesNext_of_temp (h₄.minds hs) hresult
  exact ⟨hnext.takes.right h₄.spends.toAbides.temps_le, _, h₄.trans hs hnext.fulfils.toFills⟩

theorem fills_of_closesRegion {u₁ u₂ u₃ : Session} {label : Option Label}
    {frame : Option EnsureFrame} {value : Operand} {v₁ v₂ : Unit} (hs : s.Minds x (r :: owed))
    (hend : s.Runs (emit .regionEnd) v₁ u₁) (hrescuer : u₁.Runs popRescuer label u₂)
    (hpop : u₂.Runs popEnsure frame u₃) (hcopy : u₃.Runs (emit (.copy r value)) v₂ t) :
    ∃ xs, s.Fills x (r :: owed) t owed xs {} := by
  have h₁ := fulfils_of_emit hs hend rfl
  have hrescuer : u₁.Fills x (r :: owed) u₂ (r :: owed) [] {} :=
    fills_of_stacks (runs_popRescuer.mp hrescuer).2 fun _ => .inl
  have h₂ := h₁.toFills.trans hs hrescuer
  have hpop : u₂.Fills x (r :: owed) u₃ (r :: owed) [] {} :=
    fills_of_stacks (runs_popEnsure.mp hpop).2 fun _ => .inl
  have h₃ := h₂.trans hs hpop
  exact ⟨_, h₃.trans hs (fulfils_of_result (h₃.minds hs) hcopy rfl).toFills⟩

/-- After its copies the body itself is emitted, which pays what was owed for it. -/
theorem fulfils_of_ensureBody {u₁ u₂ u₃ u₄ u₅ u₆ u₇ : Session} {frame : EnsureFrame}
    {exception : Variable} {v₁ v₂ v₃ v₄ v₅ v₆ v₇ : Unit} {ws : List Variable} (hs : s.Minds x owed)
    (hcopy : s.Runs (copyEnsure frame) v₁ u₁) (hjump : u₁.Runs (jump frame.bodyEnd) v₂ u₂)
    (hexception : u₂.Runs temp exception u₃)
    (hdummy : u₃.Runs (emit (.label frame.dummyRescue)) v₃ u₄)
    (hreceive : u₄.Runs (emit (.receiveException exception)) v₄ u₅)
    (hbody : u₅.Runs (emitEnsureBody frame) v₅ u₆)
    (hraise : u₆.Runs (emit (.raise exception)) v₆ u₇)
    (hend : u₇.Runs (emit (.label frame.bodyEnd)) v₇ t) (hsub : ∀ v ∈ owed₁, v ∈ owed)
    (hpaid : ∀ v ∈ owed, v ∈ owed₁ ∨ v ∈ results frame.instrs)
    (hknown : ∀ i, x.temp i ∈ results frame.instrs → x.temp i ∈ ws ∨ s.Holds owed (x.temp i))
    (hwritten : ∀ v ∈ ws, v ∈ results frame.instrs) :
    ∃ xs, s.Fulfils x owed t owed₁ xs { written := ws } := by
  obtain ⟨xs₁, h₁⟩ := clears_of_copyEnsure hs hcopy
  have h₂ := h₁.trans hs (fulfils_of_emit (h₁.minds hs) hjump rfl)
  have h₃ := h₂.trans hs (fulfils_of_temp (h₂.minds hs) hexception)
  have h₄ := h₃.trans hs (fulfils_of_emit (h₃.minds hs) hdummy rfl)
  have h₅ := h₄.trans hs (fulfils_of_result (h₄.minds hs) hreceive rfl)
  have h₆ := h₅.trans hs (fulfils_of_emitEnsureBody (h₅.minds hs) hbody hsub hpaid
    (fun i hi => (hknown i hi).imp_right (h₅.spends.holds h₅.sameStacks.loops)) hwritten)
  have h₇ := h₆.trans hs (fulfils_of_emit (h₆.minds hs) hraise rfl)
  have ht := h₇.trans hs (fulfils_of_emit (h₇.minds hs) hend rfl)
  rw [Ledger.append_empty, Ledger.append_empty] at ht
  exact ⟨_, ht⟩

end Opening

end Session

namespace LedgerM

open Session

variable {α β : Type}

/-- Whatever it takes it writes, or enters. -/
def Balances (y : LedgerM α) : Prop :=
  ∀ {x : Scope} {s t : Session} {owed : List Variable} {k k' : Ledger} {a : α}, s.Minds x owed →
    y.Runs s k a t k' → s.Settles x owed k t owed k'

/-- What it returns it took. -/
def Supplies (y : LedgerM Operand) : Prop :=
  ∀ {x : Scope} {s t : Session} {owed : List Variable} {k k' : Ledger} {o : Operand},
    s.Minds x owed → y.Runs s k o t k' →
      s.Settles x owed k t owed k' ∧ ∀ i, x.temp i ∈ o.var?.toList → i.toNat < t.temps

theorem balances_returning {y : LedgerM Operand} (hy : y.Supplies) : (returning y).Balances := by
  intro x s t owed k k' o hs h
  obtain ⟨m, hx, rfl⟩ := runs_returning.mp h
  obtain ⟨ht, htaken⟩ := hy hs hx
  exact ht.returning htaken

theorem balances_pure {a : α} : Balances (pure a) := by
  intro x s t owed k k' b hs h
  obtain ⟨-, rfl, rfl⟩ := runs_pure.mp h
  exact (Clears.refl hs).settles

theorem balances_bind {y : LedgerM α} {f : α → LedgerM β} (hy : y.Balances)
    (hf : ∀ a, (f a).Balances) : Balances (y >>= f) := by
  intro x s t owed k k' b hs h
  obtain ⟨a, u, m, ha, h⟩ := runs_bind.mp h
  have hu := hy hs ha
  exact hu.trans hs (hf a (hu.minds hs) h)

theorem balances_liftM {y : SessionM α}
    (hy : ∀ {x : Scope} {s t : Session} {owed : List Variable} {a : α}, s.Minds x owed →
      s.Runs y a t → s.Clears x owed t owed) : Balances (liftM y : LedgerM α) := by
  intro x s t owed k k' a hs h
  obtain ⟨hrun, rfl⟩ := runs_liftM.mp h
  exact (hy hs hrun).settles

theorem balances_emit {i : Instr} (hi : i.result? = none) :
    Balances (liftM (emit i) : LedgerM Unit) :=
  balances_liftM fun hs h => (fulfils_of_emit hs h hi).clears

theorem balances_jump {target : Label} : Balances (liftM (jump target) : LedgerM Unit) :=
  balances_emit rfl

theorem balances_newLabelNamed {stem : String} :
    Balances (liftM (newLabelNamed stem) : LedgerM Label) :=
  balances_liftM fun hs h => (fulfils_of_newLabelNamed hs h).clears

section Branching

variable {target : Label} {value test : Operand} {body yes no : LedgerM Unit}

theorem balances_condWith (hbody : body.Balances) :
    Balances (BuildT.condWith target value test body) :=
  balances_bind (balances_liftM clears_of_cond) fun _ => hbody

theorem balances_condNeWith (hbody : body.Balances) :
    Balances (BuildT.condNeWith target value test body) :=
  balances_bind (balances_liftM clears_of_condNe) fun _ => hbody

theorem balances_ifElse (hyes : yes.Balances) (hno : no.Balances) :
    Balances (BuildT.ifElse value test yes no) :=
  balances_bind balances_newLabelNamed fun _ => balances_bind balances_newLabelNamed fun _ =>
    balances_bind (balances_liftM clears_of_condNe) fun _ => balances_bind hyes fun _ =>
      balances_bind balances_jump fun _ => balances_bind (balances_emit (by rfl)) fun _ =>
        balances_bind hno fun _ => balances_emit (by rfl)

theorem balances_labelled {stem : String} {f : Label → LedgerM α}
    (hf : ∀ label, (f label).Balances) : Balances (BuildT.labelled stem f) :=
  balances_bind balances_newLabelNamed fun label => balances_bind (hf label) fun _ =>
    balances_bind (balances_emit (by rfl)) fun _ => balances_pure

theorem balances_ifNot (hbody : body.Balances) : Balances (BuildT.ifNot value test body) :=
  balances_labelled fun _ => balances_condWith hbody

theorem balances_forLoop {test increment : Label → LedgerM Unit}
    {body : Label → Label → LedgerM Unit} (htest : ∀ after, (test after).Balances)
    (hincrement : ∀ after, (increment after).Balances)
    (hbody : ∀ after bottom, (body after bottom).Balances) :
    Balances (BuildT.forLoop test increment body) :=
  balances_bind balances_newLabelNamed fun _ => balances_bind balances_newLabelNamed fun bottom =>
    balances_labelled fun after => balances_bind (balances_emit (by rfl)) fun _ =>
      balances_bind (htest after) fun _ => balances_bind (hbody after bottom) fun _ =>
        balances_bind (balances_emit (by rfl)) fun _ => balances_bind (hincrement after) fun _ =>
          balances_jump

theorem balances_repeated {body : Nat → LedgerM Unit} (hbody : ∀ i, (body i).Balances)
    {start count : Nat} : Balances (BuildT.repeated body start count) := by
  induction count generalizing start with
  | zero => exact balances_pure
  | succ count ih => exact balances_bind (hbody start) fun _ => ih

theorem balances_times {count : Nat} {body : Label → Nat → LedgerM Unit}
    (hbody : ∀ after i, (body after i).Balances) : Balances (BuildT.times count body) :=
  balances_labelled fun after => balances_repeated (hbody after)

end Branching

section Looping

variable {condition : LedgerM Operand} {body : LedgerM Unit} {goOn testFirst : Bool}

/-- What is between the begin of a loop and its end pays the loop's result. -/
theorem settles_of_loop {x : Scope} {s s₁ s₂ t : Session} {owed : List Variable} {k k' : Ledger}
    {frame : LoopFrame} {setResult : Label} {last : Option LoopFrame} (hs : s.Minds x owed)
    (hopen : s.OpensLoop s₁ frame setResult)
    (hstart : s.Fills x owed s₁ (frame.result :: owed) [.label frame.loopStart] {})
    (h : s₁.Settles x (frame.result :: owed) k s₂ owed k') (hpop : s₂.Runs popLoop last t) :
    s.Settles x owed k t owed k' := by
  obtain ⟨xs, l, rfl, h⟩ := h
  have hclose := closesLoop_of_runs (.refl s₂) hpop
  have hall := (hstart.trans hs h.toFills).trans hs (fills_of_popLoop hpop)
  rw [List.append_nil, Ledger.empty_append, Ledger.append_empty] at hall
  have hemits := hopen.emits h.emits hclose
  rw [List.append_nil] at hemits
  exact ⟨_, l, rfl, hemits.fulfils hall.spends⟩

/-- What follows in a loop: the loop's result is paid, and the loop is closed. -/
def Closes (frame : LoopFrame) (y : LedgerM Operand) : Prop :=
  ∀ {x : Scope} {s t : Session} {owed : List Variable} {k k' : Ledger} {o : Operand},
    s.Minds x (frame.result :: owed) → y.Runs s k o t k' → o = frame.result ∧
      ∃ u last, s.Settles x (frame.result :: owed) k u owed k' ∧ u.Runs popLoop last t

theorem closes_bind {frame : LoopFrame} {y : LedgerM α} {f : α → LedgerM Operand} (hy : y.Balances)
    (hf : ∀ a, Closes frame (f a)) : Closes frame (y >>= f) := by
  intro x s t owed k k' o hs h
  obtain ⟨a, s₁, m, ha, h⟩ := runs_bind.mp h
  have h₁ := hy hs ha
  obtain ⟨ho, u, last, hu, hpop⟩ := hf a (h₁.minds hs) h
  exact ⟨ho, u, last, h₁.trans hs hu, hpop⟩

theorem closes_end {frame : LoopFrame} {setResult : Label} : Closes frame (do
    emit (.label setResult)
    emit (.copy frame.result .nil)
    emit (.label frame.loopEnd)
    let _ ← popLoop
    return frame.result) := by
  intro x s t owed k k' o hs h
  simp only [↓runs_liftM_bind, runs_pure] at h
  obtain ⟨_, s₁, hset, _, s₂, hcopy, _, s₃, hend, last, _, hpop, rfl, rfl, rfl⟩ := h
  have h₁ := fulfils_of_emit hs hset rfl
  have h₂ := h₁.trans hs (fulfils_of_result (h₁.minds hs) hcopy rfl)
  have h₃ := h₂.trans hs (fulfils_of_emit (h₂.minds hs) hend rfl)
  exact ⟨rfl, s₃, last, h₃.clears.settles, hpop⟩

/-- A loop is its opening and what follows. -/
theorem supplies_of_closes {f : LoopFrame → Label → LedgerM Operand}
    (hf : ∀ frame setResult, Closes frame (f frame setResult)) : Supplies (do
      let frame ← pushLoop
      let setResult ← newLabel
      emit (.label frame.loopStart)
      f frame setResult) := by
  intro x s t owed k k' o hs h
  simp only [↓runs_liftM_bind] at h
  obtain ⟨frame, _, hpush, setResult, _, hset, _, s₁, hlabel, h⟩ := h
  obtain ⟨hopen, htakes, hstart⟩ := fills_of_opensLoop hs hpush hset hlabel
  obtain ⟨rfl, u, last, hu, hpop⟩ := hf frame setResult (hstart.minds hs) h
  refine ⟨settles_of_loop hs hopen hstart hu hpop, fun i hi => ?_⟩
  have hi := List.mem_singleton.mp hi
  have hpop : u.Fills x owed t owed [] {} := fills_of_popLoop hpop
  exact (hi ▸ htakes : s.Takes x s₁ (x.temp i)).lt.trans_le
    (hu.temps_le.trans hpop.spends.toAbides.temps_le)

theorem supplies_loop (hcondition : condition.Balances) (hbody : body.Balances) :
    Supplies (BuildT.loop condition body goOn testFirst) := by
  refine supplies_of_closes fun frame setResult => ?_
  cases testFirst with
  | true =>
    exact closes_bind hcondition fun _ => closes_bind (balances_liftM clears_of_cond) fun _ =>
      closes_bind (balances_emit (by rfl)) fun _ => closes_bind (balances_emit (by rfl)) fun _ =>
        closes_bind hbody fun _ => closes_bind (balances_emit (by rfl)) fun _ =>
          closes_bind balances_jump fun _ => closes_end
  | false =>
    exact closes_bind (balances_emit (by rfl)) fun _ =>
      closes_bind (balances_emit (by rfl)) fun _ => closes_bind hbody fun _ =>
        closes_bind (balances_emit (by rfl)) fun _ => closes_bind hcondition fun _ => closes_bind (balances_liftM clears_of_cond) fun _ =>
          closes_end

end Looping

section Protecting

variable {body cleanup : LedgerM Operand} {handler : Variable → LedgerM Operand}

theorem supplies_rescue (hbody : body.Balances) (hhandler : ∀ v, (handler v).Balances) :
    Supplies (BuildT.rescue body handler) := by
  intro x s t owed k k' o hs h
  rw [BuildT.rescue] at h
  simp only [↓runs_liftM_bind, runs_bind, runs_pure, runs_settle] at h
  obtain ⟨saved, _, hsaved, _, _, hglobal, entry, _, hentry, rescuer, _, hrescuer, after, _, hafter,
    _, _, hlabel, _, _, hstart, _, _, hpush, result, s₁, hresult, value, s₂, k₂, hvalue, h⟩ := h
  obtain ⟨_, _, hend, _, _, hpop, _, _, hcopy, _, _, hjump, _, _, hbegin, exception, _, hexception,
    _, _, hreceive, _, s₃, henter, outcome, s₄, k₄, hhandled, _, _, hleave, h⟩ := h
  obtain ⟨handled, _, _, ⟨rfl, rfl, rfl⟩, _, _, hanswer, _, s₅, hlast, rfl, rfl, rfl⟩ := h
  obtain ⟨htakes, ys, h₁⟩ :=
    fills_of_opensRescue hs hsaved hglobal hentry hrescuer hafter hlabel hstart hpush hresult
  have hopen :=
    opensRescue_of_runs hsaved hglobal hentry hrescuer hafter hlabel hstart hpush hresult
  have hs₁ := h₁.minds hs
  obtain ⟨xs₂, l₂, rfl, h₂⟩ := hbody hs₁ hvalue
  have hs₂ := h₂.minds hs₁
  obtain ⟨ys₃, h₃⟩ :=
    fills_of_entersHandler hs₂ hend hpop hcopy hjump hbegin hexception hreceive henter
  have hhandler₃ := entersHandler_of_runs hend hpop hcopy hjump hbegin hexception hreceive henter
  have hs₃ := h₃.minds hs₂
  obtain ⟨xs₄, l₄, rfl, h₄⟩ := hhandler exception hs₃ (runs_attempt.mp hhandled)
  have hs₄ := h₄.minds hs₃
  obtain ⟨ys₅, h₅⟩ := fills_of_leavesHandler hs₄ hleave hanswer hlast
  have hhandler₅ := leavesHandler_of_runs hleave hanswer hlast
  have hall := (((h₁.trans hs h₂.toFills).trans hs h₃).trans hs h₄.toFills).trans hs h₅
  rw [Ledger.empty_append, Ledger.append_empty, Ledger.append_empty] at hall
  have hstacks := hopen.sameStacks h₂.sameStacks hhandler₃ h₄.sameStacks hhandler₅
  refine ⟨⟨_, _, Ledger.append_assoc, hall, hstacks⟩, fun i hi => ?_⟩
  have hi := List.mem_singleton.mp hi
  have hle := (h₂.toFills.trans hs₁ h₃).trans hs₁ (h₄.toFills.trans hs₃ h₅)
  exact (hi ▸ htakes : s.Takes x s₁ (x.temp i)).lt.trans_le hle.spends.toAbides.temps_le

theorem supplies_ensure (hbody : body.Balances) (hcleanup : cleanup.Balances) :
    Supplies (BuildT.ensure body cleanup) := by
  intro x s t owed k k' o hs h
  rw [BuildT.ensure] at h
  simp only [↓runs_liftM_bind, runs_bind] at h
  obtain ⟨frame, s₁, hframe, _, _, henter, built, s₂, k₂, hbuilt, frame', _, hexit, h⟩ := h
  obtain rfl := runs_enterEnsureBody.mp henter
  obtain ⟨rfl, rfl⟩ := runs_exitEnsureBody.mp hexit
  split at h
  swap
  · exact absurd h (by rintro ⟨⟩)
  next frame' hhead =>
  simp only [↓runs_liftM_bind, runs_bind, runs_settle] at h
  obtain ⟨_, _, _, ⟨rfl, rfl, rfl⟩, _, _, hpush, _, _, hlabel, _, _, hstart, _, _, hrescuer, result,
    s₃, hresult, value, s₄, k₄, hvalue, _, _, hend, _, _, hleave, popped, _, hpop, h⟩ := h
  split at h
  swap
  · exact absurd h (by rintro ⟨⟩)
  next popped =>
  simp only [↓runs_liftM_bind, runs_pure] at h
  obtain ⟨_, s₅, hcopy, _, _, hcopies, _, _, hjump, exception, _, hexception, _, _, hdummy, _, _,
    hreceive, _, _, hemitted, _, _, hraise, _, s₆, hafter, rfl, rfl, rfl⟩ := h
  obtain ⟨ys, l, rfl, h₂⟩ :=
    hcleanup ((spends_of_entering hs hframe).minds hs) (runs_attempt.mp hbuilt)
  obtain ⟨hhead', news, hback, hnews, hknown⟩ := fulfils_of_keepsBack hs hframe h₂
  obtain rfl := Option.some.inj (hhead.symm.trans hhead')
  have hs₂ := hback.minds hs
  obtain ⟨htakes, xs₃, h₃⟩ := fills_of_opensRegion hs₂ hpush hlabel hstart hrescuer hresult
  have hopen := opensRegion_of_runs hpush hlabel hstart hrescuer hresult
  have hs₃ := h₃.minds hs₂
  obtain ⟨xs₄, l₄, rfl, h₄⟩ := hbody hs₃ hvalue
  have hs₄ := h₄.minds hs₃
  obtain ⟨xs₅, h₅⟩ := fills_of_closesRegion hs₄ hend hleave hpop hcopy
  obtain ⟨hpopped, hclose⟩ := closesRegion_of_runs hend hleave hpop hcopy
  rw [h₄.sameStacks.ensures, hopen.ensures, List.head?_cons] at hpopped
  obtain rfl := Option.some.inj hpopped
  -- what the cleanup takes is held until the body is emitted
  have hfront := ((hback.toFills.trans hs h₃).trans hs h₄.toFills).trans hs h₅
  have hregion := hback.sameStacks.trans (hopen.sameStacks h₄.sameStacks hclose)
  obtain ⟨xs₆, h₆⟩ := fulfils_of_ensureBody (h₅.minds hs₄) hcopies hjump hexception hdummy hreceive
    hemitted hraise hafter (fun _ => List.mem_append_right news)
    (fun v hv => (List.mem_append.mp hv).symm.imp_right (hnews v))
    (fun i hi => (hknown i hi).imp_right (hfront.spends.holds hregion.loops)) fun _ => h₂.spends.written
  have hall := hfront.trans hs h₆.toFills
  refine ⟨⟨_, l ++ l₄, Ledger.append_assoc, ⟨hall.adds, ?_⟩, hregion.trans h₆.sameStacks⟩,
    fun i hi => ?_⟩
  · have hspends := hall.spends
    rw [Ledger.append_empty, Ledger.append_empty] at hspends
    exact hspends.release
  · have hi := List.mem_singleton.mp hi
    have hle := (h₄.toFills.trans hs₃ h₅).trans hs₃ h₆.toFills
    exact (hi ▸ htakes : s₂.leaving.Takes x s₃ (x.temp i)).lt.trans_le hle.spends.toAbides.temps_le

end Protecting

end LedgerM

end ScopeIR
