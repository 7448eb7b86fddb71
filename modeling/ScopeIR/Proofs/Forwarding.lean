import ScopeIR.Proofs.Marks
import ScopeIR.Proofs.Supers

/-! What super calls without an argument list forward: all that the method received, in the order of
its main list, as it reads from the closures around the call. -/

namespace ScopeIR

/-- The variable as it reads so many closures further inside. -/
def Variable.inside (depth : Nat) : Variable → Variable
  | .named v => .named { v with depth := v.depth + depth.toUInt64 }
  | v => v

/-- A depth that the variable can be moved to. -/
def Variable.HasRoom (depth : Nat) : Variable → Prop
  | .named v => v.depth.toNat + depth < UInt64.size
  | _ => True

namespace Instr

/-- The positional argument that is received here, as it is passed from inside. -/
def passed? (depth : Nat) : Instr → Option Operand
  | .receive r .rest => some (.splat (.var (r.inside depth)))
  | .receive r (.preRequired _) | .receive r (.optional _) | .receive r (.postRequired _) =>
    some (.var (r.inside depth))
  | _ => none

def passedKeyword? (depth : Nat) : Instr → Option (Symbol × Operand)
  | .receive r (.keyword key) => some (key, .var (r.inside depth))
  | _ => none

/-- The hash of further keywords that is received here. -/
def passedRest? (depth : Nat) : Instr → Option Operand
  | .receive r .keywordRest => some (.var (r.inside depth))
  | _ => none

end Instr

/-- The pairs of the hash that is passed: hashes of further keywords before single ones. -/
def passedPairs (depth : Nat) (list : List Instr) : List (Operand × Operand) :=
  (list.filterMap (Instr.passedRest? depth)).reverse.map (.symbol .keywordRest, ·) ++
    (list.filterMap (Instr.passedKeyword? depth)).map fun p => (.symbol p.1, p.2)

/-- The code of a super call in the scope `x` that forwards all that is received in `list`. -/
inductive Forwards (x : Scope) (block : Operand) (list : List Instr) (depth : Nat)
    (result : Variable) : List Instr → Prop
  | plain : list.filterMap (Instr.passedKeyword? depth) = [] →
    list.filterMap (Instr.passedRest? depth) = [] →
      Forwards x block list depth result
        [.zsuper ⟨x.id, result, .var .self, list.filterMap (Instr.passed? depth), block, ∅,
          x.refined⟩]
  /-- The hash of further keywords is passed unless it is empty. -/
  | rest {k : Operand} {test : Variable} {elseLabel endLabel : Label} : elseLabel ≠ endLabel →
    list.filterMap (Instr.passedKeyword? depth) = [] →
    list.filterMap (Instr.passedRest? depth) = [k] →
      Forwards x block list depth result
        [.helperCall test .isHashEmpty [k], .branch .isFalse elseLabel test none,
          .zsuper ⟨x.id, result, .var .self, list.filterMap (Instr.passed? depth), block,
            {.keyword, .keywordRest}, x.refined⟩,
          .jump endLabel, .label elseLabel,
          .zsuper ⟨x.id, result, .var .self, list.filterMap (Instr.passed? depth) ++ [k], block,
            {.keyword, .keywordRest}, x.refined⟩,
          .label endLabel]
  | keywords : (list.filterMap (Instr.passedKeyword? depth) = [] →
      (list.filterMap (Instr.passedRest? depth)).length ≠ 1) → passedPairs depth list ≠ [] →
      Forwards x block list depth result
        [.zsuper ⟨x.id, result, .var .self,
          list.filterMap (Instr.passed? depth) ++ [.hash (passedPairs depth list)], block,
          {.keyword}, x.refined⟩]

/-- What is received in the list can be read from so far inside, and no keyword is named like the key
of further ones. -/
structure Passable (depth : Nat) (list : List Instr) : Prop where
  room {r : Variable} {p : Parameter} : .receive r p ∈ list → r.HasRoom depth
  key {r : Variable} {key : Symbol} : .receive r (.keyword key) ∈ list → key ≠ .keywordRest

section Deepen

variable {depth : Nat} {list : List Instr}

/-- The operand as it reads from inside. -/
def Operand.inside (depth : Nat) (o : Operand) : Operand := o.mapVars (Variable.inside depth)

theorem deepen_var {r : Variable} (h : r.HasRoom depth) :
    Operand.deepen depth.toUInt64 (.var r) = some (.var (r.inside depth)) := by
  cases r with
  | named v =>
    have h : v.depth.toNat + depth < UInt64.size := h
    have hdepth : depth.toUInt64.toNat = depth :=
      UInt64.toNat_ofNat_of_lt' (Nat.lt_of_le_of_lt (Nat.le_add_left ..) h)
    have hadd : checkedAdd v.depth depth.toUInt64 = some (v.depth + depth.toUInt64) := by
      rw [checkedAdd, hdepth, if_pos h]
    rw [Operand.deepen, Variable.deepen, hadd]
    rfl
  | temp | self => rfl

theorem deepen_positional (h : ∀ r p, .receive r p ∈ list → r.HasRoom depth) {o : Operand}
    (ho : o ∈ list.filterMap Instr.positional?) :
    Operand.deepen depth.toUInt64 o = some (o.inside depth) := by
  obtain ⟨i, hi, ho⟩ := List.mem_filterMap.mp ho
  cases i with
  | receive r p =>
    have hr := deepen_var (h _ _ hi)
    cases p <;> cases ho
    · exact hr
    · exact hr
    · exact hr
    · rw [Operand.deepen, hr]
      rfl
  | _ => cases ho

theorem deepen_value (h : ∀ r p, .receive r p ∈ list → r.HasRoom depth) {p : Operand × Operand}
    (hp : p ∈ list.filterMap Instr.keyword? ∨ p ∈ list.filterMap Instr.keywordRest?) :
    (∃ key, p.1 = .symbol key) ∧
      Operand.deepen depth.toUInt64 p.2 = some (p.2.inside depth) := by
  rcases hp with hp | hp <;> obtain ⟨i, hi, hp⟩ := List.mem_filterMap.mp hp <;> cases i with
  | receive r q =>
    have hr := deepen_var (h _ _ hi)
    cases q <;> cases hp
    exact ⟨⟨_, rfl⟩, hr⟩
  | _ => cases hp

theorem mapM_deepen {os : List Operand}
    (h : ∀ o ∈ os, Operand.deepen depth.toUInt64 o = some (o.inside depth)) :
    os.mapM (Operand.deepen depth.toUInt64) = some (os.map (Operand.inside depth)) := by
  induction os with
  | nil => rfl
  | cons o os ih =>
    rw [List.mapM_cons, h o List.mem_cons_self, ih fun o ho => h o (List.mem_cons_of_mem _ ho)]
    rfl

theorem deepenPairs_eq {pairs : List (Operand × Operand)}
    (h : ∀ p ∈ pairs, (∃ key, p.1 = .symbol key) ∧
      Operand.deepen depth.toUInt64 p.2 = some (p.2.inside depth)) :
    Operand.deepenPairs depth.toUInt64 pairs =
      some (pairs.map fun p => (p.1, p.2.inside depth)) := by
  induction pairs with
  | nil => rfl
  | cons p pairs ih =>
    obtain ⟨⟨key, hkey⟩, hvalue⟩ := h p List.mem_cons_self
    rw [Operand.deepenPairs, hkey, hvalue, ih fun p hp => h p (List.mem_cons_of_mem _ hp)]
    rw [List.map_cons, hkey]
    rfl

variable (depth list) in
theorem map_positional :
    (list.filterMap Instr.positional?).map (Operand.inside depth) =
      list.filterMap (Instr.passed? depth) := by
  rw [List.map_filterMap]
  refine congrArg (List.filterMap · list) (funext fun i => ?_)
  cases i with
  | receive r p => cases p <;> rfl
  | _ => rfl

variable (depth list) in
theorem map_keywordRest :
    (list.filterMap Instr.keywordRest?).map (fun p => (p.1, p.2.inside depth)) =
      (list.filterMap (Instr.passedRest? depth)).map (.symbol .keywordRest, ·) := by
  rw [List.map_filterMap, List.map_filterMap]
  refine congrArg (List.filterMap · list) (funext fun i => ?_)
  cases i with
  | receive r p => cases p <;> rfl
  | _ => rfl

variable (depth list) in
theorem map_keyword :
    (list.filterMap Instr.keyword?).map (fun p => (p.1, p.2.inside depth)) =
      (list.filterMap (Instr.passedKeyword? depth)).map fun p => (.symbol p.1, p.2) := by
  rw [List.map_filterMap, List.map_filterMap]
  refine congrArg (List.filterMap · list) (funext fun i => ?_)
  cases i with
  | receive r p => cases p <;> rfl
  | _ => rfl

end Deepen

section Args

variable {depth : Nat} {list : List Instr} {receives : Bool}

theorem map_keywords :
    (ForwardedArgs.ofInstrs list depth receives).keywords.map (fun p => (p.1, p.2.inside depth)) =
      passedPairs depth list := by
  rw [ForwardedArgs.ofInstrs, List.map_append, List.map_reverse, map_keywordRest, map_keyword,
    passedPairs, List.map_reverse]

theorem passedPairs_eq_nil : passedPairs depth list = [] ↔
    list.filterMap (Instr.passedRest? depth) = [] ∧
      list.filterMap (Instr.passedKeyword? depth) = [] := by
  rw [passedPairs, List.append_eq_nil_iff, List.map_eq_nil_iff, List.map_eq_nil_iff,
    List.reverse_eq_nil_iff]

/-- Every operand that is forwarded can be read from inside. -/
theorem mapM_deepen_all (h : ∀ r p, .receive r p ∈ list → r.HasRoom depth) :
    (list.filterMap Instr.positional? ++
        [Operand.hash (ForwardedArgs.ofInstrs list depth receives).keywords]).mapM
      (Operand.deepen depth.toUInt64) =
        some (list.filterMap (Instr.passed? depth) ++ [.hash (passedPairs depth list)]) := by
  have hpairs : Operand.deepenPairs depth.toUInt64
      (ForwardedArgs.ofInstrs list depth receives).keywords = _ := deepenPairs_eq fun p hp => by
    rcases List.mem_append.mp hp with hp | hp
    · exact deepen_value h (.inr (List.mem_reverse.mp hp))
    · exact deepen_value h (.inl hp)
  rw [List.mapM_append, mapM_deepen fun o => deepen_positional h, map_positional]
  simp only [List.mapM_cons, Operand.deepen, hpairs, map_keywords]
  rfl

variable (receives) in
/-- One hash of further keywords is all that is received by keyword, or there is no such single pair. -/
theorem keywords_cases (h : Passable depth list) :
    (∃ k, (ForwardedArgs.ofInstrs list depth receives).keywords = [(.symbol .keywordRest, k)] ∧
      Operand.deepen depth.toUInt64 k = some (k.inside depth) ∧
      list.filterMap (Instr.passedKeyword? depth) = [] ∧
      list.filterMap (Instr.passedRest? depth) = [k.inside depth]) ∨
    (∀ k, (ForwardedArgs.ofInstrs list depth receives).keywords ≠ [(.symbol .keywordRest, k)]) ∧
      (list.filterMap (Instr.passedKeyword? depth) = [] →
        (list.filterMap (Instr.passedRest? depth)).length ≠ 1) := by
  have hrests := map_keywordRest depth list
  have hkeywords := map_keyword depth list
  by_cases hsingle : list.filterMap (Instr.passedKeyword? depth) = [] ∧
      (list.filterMap (Instr.passedRest? depth)).length = 1
  · left
    obtain ⟨hnone, hlength⟩ := hsingle
    obtain ⟨k', hk'⟩ := List.length_eq_one_iff.mp hlength
    rw [hnone, List.map_nil, List.map_eq_nil_iff] at hkeywords
    rw [hk', List.map_singleton, List.map_eq_singleton_iff] at hrests
    obtain ⟨⟨key, k⟩, hrest, hpair⟩ := hrests
    obtain ⟨rfl, rfl⟩ := Prod.mk.inj hpair
    refine ⟨k, ?_, ?_, hnone, hk'⟩
    · rw [ForwardedArgs.ofInstrs, hrest, hkeywords]
      rfl
    · exact (deepen_value (fun _ _ => h.room) (.inr (hrest ▸ List.mem_singleton_self _))).2
  · right
    refine ⟨fun k hk => ?_, fun hnone hlength => hsingle ⟨hnone, hlength⟩⟩
    rw [ForwardedArgs.ofInstrs, List.append_eq_singleton_iff] at hk
    rcases hk with ⟨-, hk⟩ | ⟨hk, hnil⟩
    · obtain ⟨i, hi, hkey⟩ := List.mem_filterMap.mp (hk ▸ List.mem_singleton_self _ :
        (Operand.symbol .keywordRest, k) ∈ list.filterMap Instr.keyword?)
      cases i with
      | receive r p =>
        cases p with
        | keyword key =>
          obtain ⟨hkey, -⟩ := Prod.mk.inj (Option.some.inj hkey)
          exact h.key hi (Atom.symbol.inj (Operand.atom.inj hkey))
        | _ => cases hkey
      | _ => cases hkey
    · refine hsingle ⟨?_, ?_⟩
      · rw [hnil, List.map_nil] at hkeywords
        exact List.map_eq_nil_iff.mp hkeywords.symm
      · have hlength := congrArg List.length hrests
        rw [List.length_map, List.length_map, ← List.length_reverse, hk] at hlength
        exact hlength.symm

end Args

namespace Session

variable {s t : Session} {depth : Nat} {list : List Instr} {receives : Bool}

theorem runs_of_deepened {os os' : List Operand} (h : s.Runs (deepened depth os) os' t) :
    os.mapM (Operand.deepen depth.toUInt64) = some os' ∧ s = t := by
  obtain ⟨hos, rfl⟩ := runs_liftM_except.mp h
  exact ⟨Registry.orOverflow_eq_ok.mp hos, rfl⟩

theorem eq_of_deepened {os os' : List Operand}
    (hos : ∀ o ∈ os, Operand.deepen depth.toUInt64 o = some (o.inside depth))
    (h : s.Runs (deepened depth os) os' t) : os' = os.map (Operand.inside depth) ∧ s = t := by
  obtain ⟨hos', rfl⟩ := runs_of_deepened h
  exact ⟨Option.some.inj (hos'.symm.trans (mapM_deepen hos)), rfl⟩

theorem emits_of_forwardAll {forward : List Operand → CallFlags → Instr} {v : Unit}
    (hlist : Passable depth list)
    (h : s.Runs (BuildT.zsuper.forwardAll (.ofInstrs list depth receives) forward) v t) :
    s.Emits t [if receives then
        forward (list.filterMap (Instr.passed? depth) ++ [.hash (passedPairs depth list)]) {.keyword}
      else forward (list.filterMap (Instr.passed? depth)) ∅] := by
  unfold BuildT.zsuper.forwardAll at h
  obtain ⟨os, u, hdeepen, hemit⟩ := runs_bind.mp h
  obtain ⟨hos, rfl⟩ := runs_of_deepened hdeepen
  have hemit := emits_of_emit (show s.Runs (emit _) v t from hemit)
  cases receives with
  | true =>
    obtain rfl := Option.some.inj (hos.symm.trans (mapM_deepen_all fun _ _ => hlist.room))
    exact hemit
  | false =>
    have hpositional := mapM_deepen fun o => deepen_positional (fun _ _ => hlist.room) (o := o)
    rw [map_positional] at hpositional
    obtain rfl := Option.some.inj (hos.symm.trans hpositional)
    exact hemit

/-- The two calls of which one is made, and how it is chosen. -/
theorem emits_of_ifElse {test : Variable} {yes no : Instr} {v : Unit}
    (h : s.Runs (BuildT.ifElse test (.boolean true) (emit yes) (emit no)) v t) :
    ∃ elseLabel endLabel, elseLabel ≠ endLabel ∧ s.Emits t
      [.branch .isFalse elseLabel test none, yes, .jump endLabel, .label elseLabel, no,
        .label endLabel] := by
  unfold BuildT.ifElse at h
  obtain ⟨elseLabel, s₁, helse, h⟩ := runs_bind.mp h
  have helse := makesLabel_of_newLabel (show s.Runs newLabel elseLabel s₁ from helse)
  obtain ⟨endLabel, s₂, hend, h⟩ := runs_bind.mp h
  have hend := makesLabel_of_newLabel (show s₁.Runs newLabel endLabel s₂ from hend)
  obtain ⟨_, s₃, hbranch, h⟩ := runs_bind.mp h
  have hbranch := emits_of_emit (show s₂.Runs (emit _) _ s₃ from hbranch)
  obtain ⟨_, s₄, hyes, h⟩ := runs_bind.mp h
  obtain ⟨_, s₅, hjump, h⟩ := runs_bind.mp h
  have hjump := emits_of_emit (show s₄.Runs (emit _) _ s₅ from hjump)
  obtain ⟨_, s₆, hlabel, h⟩ := runs_bind.mp h
  have hlabel := emits_of_emit (show s₅.Runs (emit _) _ s₆ from hlabel)
  obtain ⟨_, s₇, hno, h⟩ := runs_bind.mp h
  have hafter := emits_of_emit (show s₇.Runs (emit _) v t from h)
  refine ⟨elseLabel, endLabel, ?_, ?_⟩
  · rintro rfl
    exact absurd helse.lt (Nat.not_lt.mpr hend.ge)
  · exact helse.toEmits.trans <| hend.toEmits.trans <| hbranch.trans <| (emits_of_emit hyes).trans <|
      hjump.trans <| hlabel.trans <| (emits_of_emit hno).trans hafter

theorem forwards_of_zsuper {block : Operand} {result : Variable} {x : Scope}
    (hlist : Passable depth list) (hx : s.registry.scope? s.builder.scope = some x)
    (hargs : s.Runs forwardedArgs? (some (.ofInstrs list depth receives)) s)
    (hreceives : receives ↔ passedPairs depth list ≠ [])
    (h : s.Runs (BuildT.zsuper block) result t) :
    ∃ xs, s.Emits t xs ∧ Forwards x block list depth result xs := by
  unfold BuildT.zsuper at h
  obtain ⟨args, u, hargs', h⟩ := runs_bind.mp h
  obtain ⟨rfl, rfl⟩ : args = some (.ofInstrs list depth receives) ∧ s = u := by
    have hargs' : s.Runs forwardedArgs? args u := hargs'
    cases hargs.symm.trans hargs'
    exact ⟨rfl, rfl⟩
  obtain ⟨result', u, hresult, h⟩ := runs_bind.mp h
  have hu := (takesTemp_of_temp (show s.Runs temp result' u from hresult)).toEmits
  obtain ⟨y, v, hscope, h⟩ := runs_bind.mp h
  obtain ⟨hy, rfl⟩ := runs_ownScope.mp (show u.Runs ownScope y v from hscope)
  obtain ⟨hid, hrefined⟩ : y.id = x.id ∧ y.refined = x.refined := by
    obtain ⟨y', hy', hxy⟩ := hu.registry.scope hx
    rw [hu.scope, hy', Option.some.injEq] at hy
    rw [← hy, hxy.same]
    exact ⟨rfl, rfl⟩
  obtain ⟨_, v, hrecord, h⟩ := runs_bind.mp h
  have hv := hu.trans (emits_of_record (show u.Runs (liftM (RegistryM.record _)) _ v from hrecord))
  -- the one shape of keywords that is tested at run time, or any other
  rcases keywords_cases receives hlist with
    ⟨k, hk, hdeepen, hnone, hsingle⟩ | ⟨hne, hmany⟩
  · simp only [hk, if_true] at h
    obtain ⟨rest, w, hrest, h⟩ := runs_bind.mp h
    obtain ⟨rfl, rfl⟩ := eq_of_deepened (by rwa [List.forall_mem_singleton]) hrest
    obtain ⟨positional, w, hpositional, h⟩ := runs_bind.mp h
    obtain ⟨rfl, rfl⟩ := eq_of_deepened
      (fun o => deepen_positional (fun _ _ => hlist.room) (o := o)) hpositional
    obtain ⟨test, w₁, htest, h⟩ := runs_bind.mp h
    have htest := (takesTemp_of_temp (show v.Runs temp test w₁ from htest)).toEmits
    obtain ⟨_, w₂, hhelper, h⟩ := runs_bind.mp h
    have hhelper := emits_of_emit (show w₁.Runs (emit _) _ w₂ from hhelper)
    obtain ⟨_, w₃, harms, h⟩ := runs_bind.mp h
    obtain ⟨rfl, rfl⟩ := runs_pure.mp h
    obtain ⟨elseLabel, endLabel, hlabels, harms⟩ := emits_of_ifElse harms
    refine ⟨_, hv.trans (htest.trans (hhelper.trans harms)), ?_⟩
    rw [hid, hrefined, List.map_singleton, map_positional]
    exact .rest hlabels hnone hsingle
  · have hall : v.Runs (do
        BuildT.zsuper.forwardAll (.ofInstrs list depth receives)
          fun args flags => .zsuper ⟨y.id, result', .var .self, args, block, flags, y.refined⟩
        pure result') result t → ∃ xs, s.Emits t xs ∧ Forwards x block list depth result xs := by
      intro h
      obtain ⟨_, w, hforward, h⟩ := runs_bind.mp h
      obtain ⟨rfl, rfl⟩ := runs_pure.mp h
      refine ⟨_, hv.trans (emits_of_forwardAll hlist hforward), ?_⟩
      by_cases hpairs : passedPairs depth list = []
      · obtain ⟨hrests, hkeywords⟩ := passedPairs_eq_nil.mp hpairs
        rw [if_neg (mt hreceives.mp (not_not.mpr hpairs)), hid, hrefined]
        exact .plain hkeywords hrests
      · rw [if_pos (hreceives.mpr hpairs), hid, hrefined]
        exact .keywords hmany hpairs
    split at h
    · next key rest hkeywords =>
      split at h
      · next hkey => exact absurd hkeywords (hkey ▸ hne rest)
      · exact hall h
    · exact hall h

/-- The method that is so many closures further out has this list: its builder has it so far, or its
scope was finished with it. No builder on the way knows that its block defines a method. -/
structure Nests (s : Session) (depth : Nat) (list : List Instr) : Prop where
  chain : ∃ closures m outer, s.registry.lexicalChain s.builder.scope = .ok (closures ++ m :: outer) ∧
    closures.length = depth ∧ (∀ x ∈ closures, x.kind.isClosureLike) ∧ m.kind = .method ∧
      match (s.builder :: s.outer)[depth]? with
      | some b => b.scope = m.id ∧ b.instrs.toList = list
      | none => m.isFinished ∧ m.instrs.getD [] = list
  names : ∀ b ∈ (s.builder :: s.outer).take depth, ¬ b.buildsDefinedMethod

/-- In a closure right inside a method that is being built. -/
theorem nests_one {list : List Instr} {x m : Scope} {b : Builder}
    (hchain : s.registry.lexicalChain s.builder.scope = .ok [x, m]) (hx : x.kind.isClosureLike)
    (hm : m.kind = .method) (hb : s.outer[0]? = some b) (hscope : b.scope = m.id)
    (hlist : b.instrs.toList = list) (hdefines : s.builder.buildsDefinedMethod = false) :
    s.Nests 1 list := by
  refine ⟨⟨[x], m, [], hchain, rfl, ?_, hm, ?_⟩, ?_⟩
  · exact fun y hy => List.mem_singleton.mp hy ▸ hx
  · rw [List.getElem?_cons_succ, hb]
    exact ⟨hscope, hlist⟩
  · intro c hc
    rw [List.take_succ_cons, List.take_zero, List.mem_singleton] at hc
    rw [hc]
    exact Bool.eq_false_iff.mp hdefines

/-- The flag for keywords belongs to the list, in builders at work and in finished scopes. -/
structure NotesKeywords (s : Session) : Prop where
  builder : ∀ b ∈ s.builder :: s.outer, b.flags.contains .receivesKeywordArgs ↔
    ∃ i ∈ b.instrs.toList, i.scopeFlags.contains .receivesKeywordArgs
  finished {id : ScopeId} {x : Scope} : s.registry.scope? id = some x → x.isFinished →
    (x.flags.contains .receivesKeywordArgs ↔
      ∃ i ∈ x.instrs.getD [], i.scopeFlags.contains .receivesKeywordArgs)

theorem runs_forwardedArgs_of_nests (hnests : s.Nests depth list) (hnotes : s.NotesKeywords) :
    ∃ receives, s.Runs forwardedArgs? (some (.ofInstrs list depth receives)) s ∧
      (receives ↔ ∃ i ∈ list, i.scopeFlags.contains .receivesKeywordArgs) := by
  obtain ⟨closures, m, outer, hchain, hlength, hclosures, hm, hmain⟩ := hnests.chain
  have hdepth : ((closures ++ m :: outer).takeWhile (·.kind.isClosureLike)).length = depth := by
    rw [List.takeWhile_append_of_pos hclosures, List.takeWhile_cons_of_neg (by rw [hm]; decide),
      List.append_nil, hlength]
  have hget : (closures ++ m :: outer)[depth]? = some m := by
    rw [← hlength, List.getElem?_append_right le_rfl, Nat.sub_self, List.getElem?_cons_zero]
  have hnames : ¬ ((s.builder :: s.outer).take depth).any (·.buildsDefinedMethod) := by
    rw [List.any_eq_true]
    rintro ⟨b, hb, hdefines⟩
    exact hnests.names b hb hdefines
  have hfound : ¬ m.kind ≠ .method := not_not.mpr hm
  cases hbuilder : (s.builder :: s.outer)[depth]? with
  | some b =>
    rw [hbuilder] at hmain
    obtain ⟨-, rfl⟩ := hmain
    refine ⟨_, runs_forwarded.mpr ⟨_, hchain, ?_, rfl⟩,
      hnotes.builder b (List.mem_of_getElem? hbuilder)⟩
    simp only [forwarded?, hdepth, hget, hbuilder, if_neg hnames, if_neg hfound]
  | none =>
    rw [hbuilder] at hmain
    obtain ⟨hfinished, rfl⟩ := hmain
    obtain ⟨id, hid⟩ := Registry.scope?_of_mem_lexicalChain hchain
      (List.mem_append_right _ (List.mem_cons_self ..))
    refine ⟨_, runs_forwarded.mpr ⟨_, hchain, ?_, rfl⟩, hnotes.finished hid hfinished⟩
    simp only [forwarded?, hdepth, hget, hbuilder, if_neg hnames, if_neg hfound]

end Session

theorem scopeFlags_receivesKeywordArgs (depth : Nat) (i : Instr) :
    i.scopeFlags.contains .receivesKeywordArgs ↔
      i.passedRest? depth ≠ none ∨ i.passedKeyword? depth ≠ none := by
  cases i with
  | receive r p =>
    cases p <;> simp [Instr.scopeFlags, Instr.passedRest?, Instr.passedKeyword?,
      FlagSet.contains_empty, FlagSet.contains_singleton]
  | call c =>
    have hname : ¬ (Instr.namedCallFlags c.name.text).contains .receivesKeywordArgs := by
      unfold Instr.namedCallFlags
      split_ifs <;> decide
    have hneither : ¬ ((Instr.call c).passedRest? depth ≠ none ∨
        (Instr.call c).passedKeyword? depth ≠ none) := by
      simp [Instr.passedRest?, Instr.passedKeyword?]
    refine iff_of_false ?_ hneither
    rw [Instr.scopeFlags, FlagSet.contains_union, Bool.or_eq_true, or_iff_right hname]
    split <;> decide
  | _ =>
    simp [Instr.scopeFlags, Instr.passedRest?, Instr.passedKeyword?, FlagSet.contains_empty,
      FlagSet.contains_insert, FlagSet.contains_singleton]

theorem passedPairs_ne_nil {depth : Nat} {list : List Instr} :
    passedPairs depth list ≠ [] ↔ ∃ i ∈ list, i.scopeFlags.contains .receivesKeywordArgs := by
  rw [Ne, passedPairs_eq_nil, List.filterMap_eq_nil_iff, List.filterMap_eq_nil_iff]
  simp only [scopeFlags_receivesKeywordArgs depth, ← forall_and, ← not_and_or, not_forall, exists_prop]

namespace TrailM

/-! The call as a step of building with a trail, where it works. -/

open Session

variable {α β : Type}

theorem liftM_pure (a : α) : (liftM (pure a : SessionM α) : TrailM α) = pure a := rfl

theorem liftM_ifElse {value test : Operand} (yes no : SessionM Unit) :
    (liftM (BuildT.ifElse value test yes no : SessionM Unit) : TrailM Unit) =
      BuildT.ifElse value test (liftM yes) (liftM no) := by
  unfold BuildT.ifElse
  simp only [liftM_bind]
  rfl

theorem liftM_forwardAll {args : ForwardedArgs} {forward : List Operand → CallFlags → Instr} :
    (liftM (BuildT.zsuper.forwardAll args forward : SessionM Unit) : TrailM Unit) =
      BuildT.zsuper.forwardAll args forward := by
  unfold BuildT.zsuper.forwardAll
  rw [liftM_bind]
  rfl

theorem liftM_zsuper (block : Operand) :
    (liftM (BuildT.zsuper block : SessionM Variable) : TrailM Variable) = BuildT.zsuper block := by
  unfold BuildT.zsuper
  rw [liftM_bind]
  refine congrArg (liftM forwardedArgs? >>= ·) (funext fun args => ?_)
  rw [liftM_bind]
  refine congrArg (liftM temp >>= ·) (funext fun result => ?_)
  cases args with
  | none =>
    dsimp only
    simp only [liftM_bind, liftM_pure]
    rfl
  | some args =>
    dsimp only
    rw [liftM_bind]
    refine congrArg (liftM ownScope >>= ·) (funext fun scope => ?_)
    rw [liftM_bind]
    refine congrArg (_ >>= ·) (funext fun _ => ?_)
    split
    · split
      · simp only [liftM_bind, liftM_pure, liftM_ifElse]
        rfl
      · simp only [liftM_bind, liftM_pure, liftM_forwardAll]
    · simp only [liftM_bind, liftM_pure, liftM_forwardAll]

end TrailM

theorem Session.works_of_liftM {α : Type} {s : Session} {h : Trail} {x : SessionM α}
    (hx : TrailM.Works (liftM x) s h) : s.Works x := by
  rcases hx with ⟨a, t, k, hr⟩ | ⟨t, k, hr⟩
  · exact .inl ⟨a, t, (TrailM.runs_liftM.mp hr).1⟩
  · exact .inr ⟨t, (Prod.mk.inj hr).1⟩

namespace Workshop

open Session

variable {w : Workshop} {place : Nat} {k : Worker}

theorem mem_builders_of_session {b : Builder} (hk : w.worker? place = some k)
    (hb : b ∈ (w.session k).builder :: (w.session k).outer) :
    ∃ place' k', w.worker? place' = some k' ∧ k'.builder = b := by
  rcases List.mem_cons.mp hb with rfl | hb
  · exact ⟨place, k, hk, rfl⟩
  · obtain ⟨place', -, hplace⟩ := List.mem_filterMap.mp hb
    obtain ⟨k', hk', hb⟩ := Option.map_eq_some_iff.mp hplace
    exact ⟨place', k', hk', hb⟩

theorem owns_receivesKeywordArgs {kind : ScopeKind} {list : List Instr} {refused : Prop} :
    Owns kind list refused .receivesKeywordArgs ↔
      ∃ i ∈ list, i.scopeFlags.contains .receivesKeywordArgs := by
  rw [Owns, or_iff_right (by cases kind <;> decide), or_iff_left (by simp)]

theorem notesKeywords_of_tracks (hw : w.Tracks) (hk : w.worker? place = some k) :
    (w.session k).NotesKeywords where
  builder b hb := by
    obtain ⟨_, k', hk', rfl⟩ := mem_builders_of_session hk hb
    obtain ⟨x, -, hflags⟩ := hw.worker hk'
    rw [hflags _ (by decide), owns_receivesKeywordArgs]
  finished hx hfinished := by
    rw [hw.finished hx hfinished rfl (by decide), owns_receivesKeywordArgs]

theorem tempOwner_mem (b : Builder) (outer : List Builder) : b.tempOwner outer ∈ b :: outer := by
  induction outer generalizing b with
  | nil => exact List.mem_singleton_self b
  | cons p outer ih =>
    unfold Builder.tempOwner
    split
    · exact List.mem_cons_of_mem _ (ih p)
    · exact List.mem_cons_self

theorem ready_of_tracks {chain : List Scope} (hw : w.Tracks) (hk : w.worker? place = some k)
    (hchain : w.registry.lexicalChain k.builder.scope = .ok chain) : (w.session k).Ready where
  temps := by
    obtain ⟨_, k', hk', howner⟩ := mem_builders_of_session hk (tempOwner_mem _ _)
    obtain ⟨x, hx, -⟩ := hw.worker hk'
    exact ⟨x, by rw [tempScope, ← howner]; exact hx⟩
  chain := ⟨chain, hchain⟩

/-- In a workshop that keeps track of its flags, a super call in closures inside of a method is built
or ends in an overflow. -/
theorem forwards_of_tracks {depth : Nat} {list : List Instr} (block : Operand) (hw : w.Tracks)
    (hk : w.worker? place = some k) (hnests : (w.session k).Nests depth list)
    (hlist : Passable depth list) :
    (∃ t, (BuildT.zsuper block : SessionM Variable) (w.session k) = (.error .overflow, t)) ∨
    ∃ x result t xs, w.registry.scope? k.builder.scope = some x ∧
      (w.session k).Runs (BuildT.zsuper block) result t ∧ (w.session k).Emits t xs ∧
        Forwards x block list depth result xs := by
  obtain ⟨x, hx, -⟩ := hw.worker hk
  obtain ⟨receives, hargs, hreceives⟩ :=
    runs_forwardedArgs_of_nests hnests (notesKeywords_of_tracks hw hk)
  obtain ⟨_, _, _, hchain, -⟩ := hnests.chain
  have hworks : (w.session k).Works (BuildT.zsuper block) := by
    refine works_of_liftM (h := ⟨[], []⟩) ?_
    rw [TrailM.liftM_zsuper]
    exact TrailM.works_zsuper (ready_of_tracks hw hk hchain) hargs
  rcases hworks with ⟨result, t, hr⟩ | hoverflow
  · obtain ⟨xs, hxs, hforwards⟩ :=
      forwards_of_zsuper hlist hx hargs (hreceives.trans passedPairs_ne_nil.symm) hr
    exact .inr ⟨x, result, t, xs, hx, hr, hxs, hforwards⟩
  · exact .inl hoverflow

/-- A super call in closures inside of a method is built unless a number leaves its word. It forwards
all that the method has received so far. -/
theorem forwards_of_run {config : Config} {ops : List Op} {depth : Nat} {list : List Instr}
    (block : Operand) (hrun : (Workshop.empty config).run ops = some w)
    (hk : w.worker? place = some k) (hnests : (w.session k).Nests depth list)
    (hlist : Passable depth list) :
    (∃ t, (BuildT.zsuper block : SessionM Variable) (w.session k) = (.error .overflow, t)) ∨
    ∃ x result t xs, w.registry.scope? k.builder.scope = some x ∧
      (w.session k).Runs (BuildT.zsuper block) result t ∧ (w.session k).Emits t xs ∧
        Forwards x block list depth result xs :=
  forwards_of_tracks block (tracks_of_run hrun) hk hnests hlist

/-- An argument and further keywords. -/
def argumentAndKeywords : List Instr :=
  [.receive (.named ⟨⟨"a"⟩, 0, 0⟩) (.preRequired 0), .receive (.named ⟨⟨"opts"⟩, 0, 1⟩) .keywordRest]

/-- A method that receives them, and a block in it. -/
def blockInMethod : List Op :=
  [.newScope .method ⟨"m"⟩ "main.rb" 0 none, .openRoot ⟨0⟩] ++
    argumentAndKeywords.map (fun i => .act 0 (.emit i)) ++
    [.newScope .closure ⟨"_CLOSURE_"⟩ "main.rb" 1 (some ⟨0⟩), .openInside 0 ⟨1⟩ false]

theorem forwards_of_run_blockInMethod : ∃ w k x result t xs,
    (Workshop.empty {}).run blockInMethod = some w ∧ w.worker? 1 = some k ∧
      w.registry.scope? k.builder.scope = some x ∧
      (w.session k).Runs (BuildT.zsuper .nullBlock) result t ∧ (w.session k).Emits t xs ∧
        Forwards x .nullBlock argumentAndKeywords 1 result xs := by
  have hrun : ((Workshop.empty {}).run blockInMethod).isSome := by decide +kernel
  obtain ⟨w, hw⟩ := Option.isSome_iff_exists.mp hrun
  have hfacts : ∀ v ∈ (Workshop.empty {}).run blockInMethod, ∃ k ∈ v.worker? 1,
      ((BuildT.zsuper .nullBlock : SessionM Variable) (v.session k)).1.isOk ∧
      k.builder.scope = ⟨1⟩ ∧ k.builder.buildsDefinedMethod = false ∧
      (∃ x ∈ v.registry.scope? ⟨1⟩, x.kind = .closure ∧ x.parent = some ⟨0⟩) ∧
      (∃ m ∈ v.registry.scope? ⟨0⟩, m.id = ⟨0⟩ ∧ m.kind = .method ∧ m.parent = none) ∧
      ∃ b ∈ (v.session k).outer[0]?, b.scope = ⟨0⟩ ∧ b.instrs.toList = argumentAndKeywords := by
    decide +kernel
  obtain ⟨k, hk, hok, hscope, hdefines, ⟨x, hx, hkind, hparent⟩, ⟨m, hm, hid, hmkind, hmparent⟩, b,
    hb, hbscope, hinstrs⟩ := hfacts w hw
  have hchain : w.registry.lexicalChain ⟨1⟩ = .ok [x, m] :=
    Registry.lexicalChain_of_pair hx hparent (by decide) hm hmparent
  have hnests : (w.session k).Nests 1 argumentAndKeywords :=
    nests_one (hscope ▸ hchain) (hkind ▸ rfl) hmkind hb (hbscope.trans hid.symm) hinstrs hdefines
  have hlist : Passable 1 argumentAndKeywords := by
    constructor
    · intro r p h
      simp only [argumentAndKeywords, List.mem_cons, Instr.receive.injEq, List.not_mem_nil,
        or_false] at h
      rcases h with ⟨rfl, -⟩ | ⟨rfl, -⟩ <;> exact (by decide : 0 + 1 < UInt64.size)
    · simp [argumentAndKeywords]
  rcases forwards_of_run .nullBlock hw hk hnests hlist with ⟨t, ht⟩ | ⟨y, result, t, xs, h⟩
  · rw [ht] at hok
    cases hok
  · exact ⟨w, k, y, result, t, xs, hw, hk, h⟩

end Workshop

end ScopeIR
