import Mathlib.Data.List.Nodup
import ScopeIR.Proofs.Advance

/-! The arena of scopes. As long as callers name scopes that are there, scopes have their numbers,
parents are older than their children, and closures are numbered in the order they are made. -/

namespace ScopeIR

namespace Registry

variable {kept : Prop} {g g' : Registry} {id : ScopeId} {x y : Scope} {n m : Nat}

/-- The numbers of the closures, in the order of the scopes. -/
def closureIds (g : Registry) : List Nat :=
  (g.scopes.toList.filterMap (·.closureId)).map (·.toNat)

/-- Scopes are where their numbers say, whatever callers name. -/
structure Arranged (g : Registry) : Prop where
  number {n : Nat} {x : Scope} : g.scopes[n]? = some x → x.id.index.toNat = n
  parent {n : Nat} {x : Scope} {p : ScopeId} : g.scopes[n]? = some x → x.parent = some p →
    p.index.toNat < n
  closureIds : g.closureIds = List.range g.nextClosureId.toNat

/-- Scopes refer to each other as they should. -/
structure Formed (g : Registry) : Prop where
  number {n : Nat} {x : Scope} : g.scopes[n]? = some x → x.id.index.toNat = n
  parent {n : Nat} {x : Scope} {p : ScopeId} : g.scopes[n]? = some x → x.parent = some p →
    p.index.toNat < n
  closureIds : g.closureIds = List.range g.nextClosureId.toNat
  carries {n : Nat} {x : Scope} : g.scopes[n]? = some x →
    (x.closureId.isSome ↔ x.kind.isClosureLike)
  closures {n : Nat} {x : Scope} {c : ScopeId} : g.scopes[n]? = some x → c ∈ x.closures → g.Has c
  nodup {n : Nat} {x : Scope} : g.scopes[n]? = some x → x.closures.Nodup
  joined {n : Nat} {x y : Scope} {p : ScopeId} : g.scopes[n]? = some x → x.kind.isClosureLike →
    x.parent = some p → g.scope? p = some y → y.closures.count x.id = 1

theorem formed_empty (config : Config) : ({ config } : Registry).Formed where
  number h := nomatch h
  parent h := nomatch h
  closureIds := rfl
  carries h := nomatch h
  closures h := nomatch h
  nodup h := nomatch h
  joined h := nomatch h

theorem Formed.arranged (hg : g.Formed) : g.Arranged := ⟨hg.number, hg.parent, hg.closureIds⟩

section Closures

theorem closureIds_eq (g : Registry) : g.closureIds =
    ((g.scopes.toList.map (·.closureId)).filterMap fun c => c).map (·.toNat) := by
  rw [List.filterMap_map]
  rfl

theorem Alters.closureIds (h : g.Alters kept g') : g'.closureIds = g.closureIds := by
  have hmap : g'.scopes.toList.map (·.closureId) = g.scopes.toList.map (·.closureId) := by
    refine List.ext_getElem? fun n => ?_
    rw [List.getElem?_map, List.getElem?_map, Array.getElem?_toList, Array.getElem?_toList]
    cases hx : g.scopes[n]? with
    | some x =>
      obtain ⟨y, hy, hxy⟩ := h.scope hx
      rw [hy, Option.map_some, Option.map_some, hxy.closureId]
    | none =>
      have hge : g'.scopes.size ≤ n := h.size ▸ Array.getElem?_eq_none_iff.mp hx
      rw [Array.getElem?_eq_none hge]
  rw [closureIds_eq, hmap, closureIds_eq]

theorem Gains.closureIds (h : g.Gains x g') :
    g'.closureIds = g.closureIds ++ (x.closureId.map (·.toNat)).toList := by
  have hmap : g'.scopes.toList.map (·.closureId) =
      g.scopes.toList.map (·.closureId) ++ [x.closureId] := by
    refine List.ext_getElem? fun n => ?_
    rw [List.getElem?_map, Array.getElem?_toList]
    cases hy : g'.scopes[n]? with
    | some y =>
      rcases h.cases hy with ⟨rfl, rfl⟩ | ⟨z, hz, rfl⟩
      · rw [List.getElem?_append_right (by simp), List.length_map, Array.length_toList,
          Nat.sub_self]
        rfl
      · have hlt : n < (g.scopes.toList.map (·.closureId)).length := by
          rw [List.length_map, Array.length_toList]
          exact (Array.getElem?_eq_some_iff.mp hz).1
        rw [List.getElem?_append_left hlt, List.getElem?_map, Array.getElem?_toList, hz]
        rfl
    | none =>
      have hge : g'.scopes.size ≤ n := Array.getElem?_eq_none_iff.mp hy
      rw [List.getElem?_eq_none, Option.map_none]
      rwa [List.length_append, List.length_map, Array.length_toList, List.length_singleton,
        ← h.size]
  rw [closureIds_eq, hmap, closureIds_eq, List.filterMap_append, List.map_append]
  cases x.closureId <;> rfl

/-- No two scopes carry one closure id. -/
theorem Arranged.eq_of_closureId {c : UInt64} (hg : g.Arranged) (hx : g.scopes[n]? = some x)
    (hy : g.scopes[m]? = some y) (hxc : x.closureId = some c) (hyc : y.closureId = some c) :
    n = m := by
  have hnodup : (g.scopes.toList.filterMap (·.closureId)).Nodup := by
    refine List.Nodup.of_map (·.toNat) ?_
    have hrange := hg.closureIds
    unfold Registry.closureIds at hrange
    rw [hrange]
    exact List.nodup_range
  have hpairs := List.pairwise_iff_getElem.mp (List.pairwise_filterMap.mp hnodup)
  obtain ⟨hn, rfl⟩ := Array.getElem?_eq_some_iff.mp hx
  obtain ⟨hm, rfl⟩ := Array.getElem?_eq_some_iff.mp hy
  rcases Nat.lt_trichotomy n m with hlt | heq | hlt
  · exact absurd rfl (hpairs n m hn hm hlt c hxc c hyc)
  · exact heq
  · exact absurd rfl (hpairs m n hm hn hlt c hyc c hxc)

end Closures

namespace Arranged

theorem alters (hg : g.Arranged) (h : g.Alters kept g') : g'.Arranged where
  number {n y} hy := by
    obtain ⟨x, hx, hxy⟩ := h.old hy
    rw [hxy.id]
    exact hg.number hx
  parent {n y p} hy hp := by
    obtain ⟨x, hx, hxy⟩ := h.old hy
    exact hg.parent hx (hxy.parent ▸ hp)
  closureIds := by
    rw [h.closureIds, h.nextClosureId]
    exact hg.closureIds

theorem gains (hg : g.Arranged) (h : g.Gains x g') : g'.Arranged where
  number {n y} hy := by
    rcases h.cases hy with ⟨rfl, rfl⟩ | ⟨z, hz, rfl⟩
    · exact h.id
    · exact hg.number (x := z) hz
  parent {n y p} hy hp := by
    rcases h.cases hy with ⟨rfl, rfl⟩ | ⟨z, hz, rfl⟩
    · exact h.parent hp
    · exact hg.parent hz hp
  closureIds := by
    rw [h.closureIds, hg.closureIds, h.closureId, h.nextClosureId]
    split
    · exact List.range_succ.symm
    · exact List.append_nil _

theorem advance (hg : g.Arranged) (h : g.Advance kept g') : g'.Arranged := by
  rcases h.cases with h | ⟨x, h⟩
  · exact hg.alters h
  · exact hg.gains h

theorem advances (hg : g.Arranged) (h : g.Advances kept g') : g'.Arranged := by
  induction h with
  | refl => exact hg
  | tail _ hstep ih => exact ih.advance hstep

end Arranged

namespace Formed

theorem alters (hg : g.Formed) (hkept : kept) (h : g.Alters kept g') : g'.Formed := by
  have hhas : ∀ {c : ScopeId}, g.Has c → g'.Has c := fun hc => by
    unfold Has at *
    rwa [h.size]
  have hnodup : ∀ {n : Nat} {y : Scope}, g'.scopes[n]? = some y → y.closures.Nodup := by
    intro n y hy
    obtain ⟨x, hx, hxy⟩ := h.old hy
    rcases hxy.closures with heq | ⟨c, hnew, -, heq⟩
    · rw [heq]
      exact hg.nodup hx
    · rw [heq]
      exact List.concat_eq_append ▸ (hg.nodup hx).concat hnew
  obtain ⟨hnumber, hparent, hclosureIds⟩ := hg.arranged.alters h
  refine ⟨hnumber, hparent, hclosureIds, ?carries, ?closures, hnodup, ?joined⟩
  case carries =>
    intro n y hy
    obtain ⟨x, hx, hxy⟩ := h.old hy
    rw [hxy.closureId, hxy.kind]
    exact hg.carries hx
  case closures =>
    intro n y c hy hc
    obtain ⟨x, hx, hxy⟩ := h.old hy
    rcases hxy.closures with heq | ⟨c', -, hhas', heq⟩
    · exact hhas (hg.closures hx (heq ▸ hc))
    · rw [heq] at hc
      rcases List.mem_append.mp hc with hc | hc
      · exact hhas (hg.closures hx hc)
      · rw [List.mem_singleton.mp hc]
        exact hhas (hhas' hkept)
  case joined =>
    intro n y z p hy hkind hp hz
    obtain ⟨x, hx, hxy⟩ := h.old hy
    obtain ⟨w, hw, hwz⟩ := h.old hz
    have hcount := hg.joined hx (hxy.kind ▸ hkind) (hxy.parent ▸ hp) hw
    have hmem : x.id ∈ w.closures := List.count_pos_iff.mp (by omega)
    rw [hxy.id]
    exact List.count_eq_one_of_mem (hnodup hz) (hwz.later.closures.subset hmem)

/-- The new number is in no list yet, since all that is there has a smaller one. -/
theorem notMem_closures (hg : g.Formed) (h : g.Gains x g') (hy : g.scopes[n]? = some y) :
    x.id ∉ y.closures := by
  intro hmem
  have hlt : x.id.index.toNat < g.scopes.size := hg.closures hy hmem
  have hid := h.id
  omega

theorem nodup_gains (hg : g.Formed) (h : g.Gains x g') (hy : g'.scopes[n]? = some y) :
    y.closures.Nodup := by
  rcases h.cases hy with ⟨-, rfl⟩ | ⟨z, hz, rfl⟩
  · rw [h.closures]
    exact List.nodup_nil
  · dsimp only
    split
    · exact List.concat_eq_append ▸ (hg.nodup hz).concat (hg.notMem_closures h hz)
    · exact hg.nodup hz

theorem joined_gains {z : Scope} {p : ScopeId} (hg : g.Formed) (h : g.Gains x g')
    (hy : g'.scopes[n]? = some y) (hkind : y.kind.isClosureLike) (hp : y.parent = some p)
    (hz : g'.scope? p = some z) : z.closures.count y.id = 1 := by
  refine List.count_eq_one_of_mem (hg.nodup_gains h hz) ?_
  rcases h.cases hz with ⟨hn, rfl⟩ | ⟨w, hw, rfl⟩
  · -- the new scope is nobody's parent yet
    exfalso
    rcases h.cases hy with ⟨-, rfl⟩ | ⟨v, hv, rfl⟩
    · have hlt : p.index.toNat < g.scopes.size := h.parent hp
      omega
    · have hlt := hg.parent hv hp
      have hn' := (Array.getElem?_eq_some_iff.mp hv).1
      omega
  · rcases h.cases hy with ⟨-, rfl⟩ | ⟨v, hv, rfl⟩
    · dsimp only
      rw [if_pos ⟨hkind, by rw [hp]; rfl⟩]
      exact List.mem_append_right _ (List.mem_singleton_self _)
    · have hcount := hg.joined hv hkind hp hw
      have hmem : v.id ∈ w.closures := List.count_pos_iff.mp (by omega)
      dsimp only
      split
      · exact List.mem_append_left _ hmem
      · exact hmem

theorem gains (hg : g.Formed) (h : g.Gains x g') : g'.Formed := by
  have hhas : ∀ {c : ScopeId}, g.Has c → g'.Has c := fun hc => by
    have hsize := h.size
    unfold Has at *
    omega
  have hself : g'.Has x.id := by
    unfold Has
    rw [h.id, h.size]
    exact Nat.lt_succ_self _
  obtain ⟨hnumber, hparent, hclosureIds⟩ := hg.arranged.gains h
  refine ⟨hnumber, hparent, hclosureIds, ?carries, ?closures, hg.nodup_gains h, hg.joined_gains h⟩
  case carries =>
    intro n y hy
    rcases h.cases hy with ⟨rfl, rfl⟩ | ⟨z, hz, rfl⟩
    · rw [h.closureId]
      cases y.kind.isClosureLike <;> simp
    · exact hg.carries (x := z) hz
  case closures =>
    intro n y c hy hc
    rcases h.cases hy with ⟨rfl, rfl⟩ | ⟨z, hz, rfl⟩
    · rw [h.closures] at hc
      cases hc
    · dsimp only at hc
      split at hc
      · rcases List.mem_append.mp hc with hc | hc
        · exact hhas (hg.closures hz hc)
        · rw [List.mem_singleton.mp hc]
          exact hself
      · exact hhas (hg.closures hz hc)

theorem advance (hg : g.Formed) (hkept : kept) (h : g.Advance kept g') : g'.Formed := by
  rcases h.cases with h | ⟨x, h⟩
  · exact hg.alters hkept h
  · exact hg.gains h

theorem advances (hg : g.Formed) (hkept : kept) (h : g.Advances kept g') : g'.Formed := by
  induction h with
  | refl => exact hg
  | tail _ hstep ih => exact ih.advance hkept hstep

end Formed

/-- A scope is found by its own number. -/
theorem Arranged.eq_id (hg : g.Arranged) (hx : g.scope? id = some x) : x.id = id :=
  congrArg ScopeId.mk (UInt64.toNat_inj.mp (hg.number hx))

theorem Formed.eq_id (hg : g.Formed) (hx : g.scope? id = some x) : x.id = id :=
  hg.arranged.eq_id hx

/-- Numbers of scopes fit their word. -/
theorem Formed.size_le (hg : g.Formed) : g.scopes.size ≤ UInt64.size := by
  apply Nat.le_of_not_lt
  intro hlt
  have hnumber := hg.number (Array.getElem?_eq_getElem hlt)
  have hfits := (g.scopes[UInt64.size]).id.index.toNat_lt_size
  omega

section Walks

/-- The walk outwards from a scope, which goes on as long as there is a parent. -/
inductive Walk (g : Registry) : ScopeId → List Scope → Prop
  | last {id : ScopeId} {x : Scope} : g.scope? id = some x → x.parent = none → g.Walk id [x]
  | outwards {id p : ScopeId} {x : Scope} {rest : List Scope} : g.scope? id = some x →
    x.parent = some p → g.Walk p rest → g.Walk id (x :: rest)

/-- Parents are there, since they are older than scopes that are. -/
theorem Arranged.has_parent {p : ScopeId} (hg : g.Arranged) (hx : g.scope? id = some x)
    (hp : x.parent = some p) : g.Has p :=
  (hg.parent hx hp).trans (Has.of_scope? hx)

/-- Every walk ends, and it is the chain of the scope. -/
theorem Arranged.walk (hg : g.Arranged) (hid : g.Has id) :
    ∃ chain, g.Walk id chain ∧ g.lexicalChain id = .ok chain := by
  -- on the number of the scope, since parents have smaller ones
  induction hn : id.index.toNat using Nat.strong_induction_on generalizing id with
  | _ n ih =>
    obtain ⟨x, hx⟩ := has_iff.mp hid
    cases hp : x.parent with
    | none =>
      refine ⟨[x], .last hx hp, ?_⟩
      rw [lexicalChain_eq hx, hp]
    | some p =>
      have hlt := hg.parent hx hp
      obtain ⟨rest, hwalk, hrest⟩ := ih p.index.toNat (hn ▸ hlt) (hg.has_parent hx hp) rfl
      refine ⟨x :: rest, .outwards hx hp hwalk, ?_⟩
      rw [lexicalChain_eq hx, hp]
      dsimp only
      rw [if_pos (UInt64.lt_iff_toNat_lt.mpr hlt), hrest]
      rfl

theorem Formed.walk (hg : g.Formed) (hid : g.Has id) :
    ∃ chain, g.Walk id chain ∧ g.lexicalChain id = .ok chain := hg.arranged.walk hid

/-- On the way outwards numbers get smaller. -/
theorem Formed.pairwise_walk {chain : List Scope} (hg : g.Formed) (h : g.Walk id chain) :
    (∀ x ∈ chain, x.id.index.toNat ≤ id.index.toNat) ∧
      chain.Pairwise fun inner outer => outer.id.index < inner.id.index := by
  induction h with
  | @last id x hx =>
    refine ⟨fun y hy => ?_, List.pairwise_singleton _ _⟩
    rw [List.mem_singleton.mp hy]
    exact (hg.number hx).le
  | @outwards id p x rest hx hp _ ih =>
    obtain ⟨hle, hpairs⟩ := ih
    have hid := hg.number hx
    have hlt := hg.parent hx hp
    refine ⟨fun y hy => ?_, List.pairwise_cons.mpr ⟨fun y hy => ?_, hpairs⟩⟩
    · rcases List.mem_cons.mp hy with rfl | hy
      · exact hid.le
      · have := hle y hy
        omega
    · have := hle y hy
      rw [UInt64.lt_iff_toNat_lt]
      omega

end Walks

end Registry

/-- A temporary that is named after the closure it belongs to. -/
def Variable.isOfClosure : Variable → Bool
  | .temp (.ofClosure ..) => true
  | _ => false

namespace Session

variable {kept : Prop} {s t s' t' : Session} {v v' : Variable}

/-- A temporary of a closure is named after the closure that owns it and its counter. -/
theorem named_of_temp {c i : UInt64} (h : s.Runs temp (.temp (.ofClosure c i)) t) : ∃ x,
    s.registry.scope? s.tempScope = some x ∧ x.closureId = some c ∧ x.nextTemp = i ∧
      s.registry.Runs (RegistryM.nextTemp s.tempScope) i t.registry := by
  obtain ⟨j, g, y, hruns, hy, hname, rfl⟩ := runs_temp h
  obtain ⟨x, next, hx, -, rfl, rfl⟩ := Registry.eq_of_nextTemp hruns
  obtain rfl := Option.some.inj ((Registry.scope?_setScope_self hx).symm.trans hy)
  replace hname := Variable.temp.inj hname
  split at hname
  · next hc =>
    cases hname
    exact ⟨x, hx, hc, rfl, hruns⟩
  · cases hname

/-- Once handed out, a temporary of a closure is never handed out again. -/
theorem temp_ne_of_later (hkept : kept) (hs : s.registry.Formed) (ht : s.Runs temp v t)
    (hlater : t.registry.Advances kept s'.registry) (ht' : s'.Runs temp v' t')
    (hv : v.isOfClosure) : v ≠ v' := by
  intro heq
  subst heq
  obtain ⟨c, i, rfl⟩ : ∃ c i, v = .temp (.ofClosure c i) := by
    unfold Variable.isOfClosure at hv
    split at hv
    · exact ⟨_, _, rfl⟩
    · cases hv
  obtain ⟨x, hx, hc, hi, hruns⟩ := named_of_temp ht
  obtain ⟨x', hx', hc', hi', -⟩ := named_of_temp ht'
  -- the counter of the scope stands above the index from then on
  obtain ⟨w, next, hw, hnext, -, hg⟩ := Registry.eq_of_nextTemp hruns
  obtain rfl := Option.some.inj (hx.symm.trans hw)
  have hy : t.registry.scope? s.tempScope = some { x with nextTemp := next } := by
    rw [hg]
    exact Registry.scope?_setScope_self hx
  obtain ⟨y, hy', hxy⟩ := hlater.later hy
  have hformed : s'.registry.Formed :=
    (hs.advance hkept (.changes (.serves (.nextTemp hruns)))).advances hkept hlater
  have hsame : s.tempScope.index.toNat = s'.tempScope.index.toNat :=
    hformed.arranged.eq_of_closureId hy' hx' (hxy.closureId.trans hc) hc'
  have hyx : y = x' := by
    unfold Registry.scope? at hy' hx'
    rw [hsame] at hy'
    exact Option.some.inj (hy'.symm.trans hx')
  have htemps : next.toNat ≤ y.nextTemp.toNat := hxy.temps
  rw [hyx, hi', ← hi] at htemps
  omega

end Session

end ScopeIR
