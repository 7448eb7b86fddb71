import Mathlib.Data.List.Basic
import ScopeIR.Proofs.Overflow
import ScopeIR.Proofs.Steady

/-! Super calls without an argument list inside nested blocks: what the builders around the call know
of the methods that these blocks are passed to, and what the call builds. -/

namespace ScopeIR

/-- The methods that the builders of closures know, from inside out. A builder forgets the method
whose block it builds while it builds the block of another call. -/
def hints : List (Option Symbol) → List (Option Symbol)
  | [] => []
  | call :: calls => call :: (hints calls).modifyHead call.or

/-- The methods of which some builder knows. That of the outermost closure is not among them if this
closure itself builds a block. -/
def noticed : List (Option Symbol) → List (Option Symbol)
  | [] => []
  | [inner, outer] => if inner.isSome then [inner] else [inner, outer]
  | call :: calls => call :: noticed calls

/-- Only what is around the outermost block decides whether its method is noticed. -/
theorem noticed_append (calls : List (Option Symbol)) (inner : Symbol) (outer : Option Symbol) :
    noticed (calls ++ [some inner, outer]) = calls ++ [some inner] := by
  induction calls with
  | nil => rfl
  | cons call calls ih =>
    rw [List.cons_append, List.cons_append, ← ih]
    rcases calls with _ | ⟨_, _ | ⟨_, _⟩⟩ <;> rfl

theorem noticed_eq_self (calls : List (Option Symbol))
    (h : ∀ rest inner outer, calls ≠ rest ++ [some inner, outer]) : noticed calls = calls := by
  induction calls with
  | nil => rfl
  | cons call calls ih =>
    have ih := ih fun rest inner outer he => h (call :: rest) inner outer (by rw [he]; rfl)
    rcases calls with _ | ⟨outer, _ | ⟨_, _⟩⟩
    · rfl
    · cases call with
      | none => rfl
      | some inner => exact absurd rfl (h [] inner outer)
    · exact congrArg (call :: ·) ih

theorem exists_mem_hints {P : Option Symbol → Prop} (hP : ¬ P none)
    (calls : List (Option Symbol)) :
    (∃ hint ∈ hints calls, P hint) ↔ ∃ call ∈ noticed calls, P call := by
  induction calls with
  | nil => exact Iff.rfl
  | cons inner calls ih =>
    rcases calls with _ | ⟨outer, _ | ⟨next, calls⟩⟩
    · exact Iff.rfl
    · cases inner with
      | none => exact Iff.rfl
      | some method =>
        have hhints : hints [some method, outer] = [some method, some method] := rfl
        have hnoticed : noticed [some method, outer] = [some method] := rfl
        rw [hhints, hnoticed, List.exists_mem_cons_iff, or_iff_right_of_imp]
        exact fun h => ⟨_, List.mem_singleton_self _, h⟩
    · have hnoticed : noticed (inner :: outer :: next :: calls) =
          inner :: noticed (outer :: next :: calls) := rfl
      have hhints : hints (inner :: outer :: next :: calls) =
          inner :: inner.or outer :: (hints (next :: calls)).modifyHead outer.or := rfl
      have htail : hints (outer :: next :: calls) =
          outer :: (hints (next :: calls)).modifyHead outer.or := rfl
      -- what the builder of `outer` forgets, the one around it knows
      have houter : P outer → ∃ hint ∈ (hints (next :: calls)).modifyHead outer.or, P hint := by
        intro h
        cases outer with
        | none => exact absurd h hP
        | some method => exact ⟨some method, List.mem_cons_self, h⟩
      rw [hnoticed, hhints, List.exists_mem_cons_iff, List.exists_mem_cons_iff,
        List.exists_mem_cons_iff, ← ih, htail, List.exists_mem_cons_iff]
      cases inner with
      | none => exact Iff.rfl
      | some method =>
        constructor
        · rintro (h | h | h)
          · exact .inl h
          · exact .inl h
          · exact .inr (.inr h)
        · rintro (h | h | h)
          · exact .inl h
          · exact .inr (.inr (houter h))
          · exact .inr (.inr h)

/-- The scope that owns the frame here is of this kind, and it lies so many closures further out. -/
def Registry.Frames (g : Registry) (id : ScopeId) (depth : Nat) (frame : ScopeKind) : Prop :=
  ∃ chain, g.lexicalChain id = .ok chain ∧ ∃ inner outer,
    chain.map (·.kind) = inner ++ frame :: outer ∧ inner.length = depth ∧
      (∀ kind ∈ inner, kind.isClosureLike) ∧ ¬ frame.isClosureLike

/-- The builders of the closures around have their hints, and the scope that owns the frame is of the
kind that the place says. -/
structure Stands (place : Nesting) (s : Session) : Prop where
  ownTemps : s.builder.borrowsTemps = false
  hints_eq : ((s.builder :: s.outer).take place.calls.length).map (·.methodName) =
    hints place.calls
  frames : s.registry.Frames s.builder.scope place.calls.length place.frame

section Frames

variable {g g' : Registry} {id : ScopeId} {depth : Nat} {frame kind : ScopeKind}
  {s t : Session} {call : Option Symbol}

theorem Registry.Frames.of_growsTo (h : g.Frames id depth frame) (hg : g.GrowsTo g') :
    g'.Frames id depth frame := by
  obtain ⟨chain, hchain, inner, outer, hkinds, hrest⟩ := h
  obtain ⟨chain', hchain', hkinds'⟩ := lexicalChain_of_growsTo hg hchain
  exact ⟨chain', hchain', inner, outer, hkinds'.trans hkinds, hrest⟩

/-- The chain of a scope inside is longer by one. -/
theorem Session.OpensChild.chain {chain : List Scope} (ht : s.OpensChild t kind call)
    (hchain : s.registry.lexicalChain s.builder.scope = .ok chain) :
    ∃ x chain', t.registry.lexicalChain t.builder.scope = .ok (x :: chain') ∧ x.kind = kind ∧
      chain'.map (·.kind) = chain.map (·.kind) := by
  obtain ⟨chain', hchain', hkinds⟩ := Registry.lexicalChain_of_growsTo ht.registry hchain
  obtain ⟨x, hx, hkind, hparent⟩ := ht.scope
  obtain ⟨y, hy⟩ := ht.own
  have hlt : s.builder.scope.index < t.builder.scope.index := by
    rw [UInt64.lt_iff_toNat_lt, ht.isNew]
    exact (Array.getElem?_eq_some_iff.mp hy).1
  refine ⟨x, chain', ?_, hkind, hkinds⟩
  rw [Registry.lexicalChain_eq hx, hparent]
  dsimp only
  rw [if_pos hlt, hchain']
  rfl

theorem Session.OpensChild.frames (ht : s.OpensChild t kind call)
    (hs : s.registry.Frames s.builder.scope depth frame) (hkind : kind.isClosureLike) :
    t.registry.Frames t.builder.scope (depth + 1) frame := by
  obtain ⟨chain, hchain, inner, outer, hkinds, hlength, hinner, hframe⟩ := hs
  obtain ⟨x, chain', hchain', hx, hkinds'⟩ := ht.chain hchain
  refine ⟨_, hchain', kind :: inner, outer, ?_, ?_, ?_, hframe⟩
  · rw [List.map_cons, hx, hkinds', hkinds, List.cons_append]
  · rw [List.length_cons, hlength]
  · intro k hk
    rcases List.mem_cons.mp hk with rfl | hk
    · exact hkind
    · exact hinner k hk

end Frames

namespace Stands

open Session

variable {place : Nesting} {s t : Session}

theorem of_same (hs : Stands place s) (hg : s.registry.GrowsTo t.registry)
    (hscope : t.builder.scope = s.builder.scope)
    (htemps : t.builder.borrowsTemps = s.builder.borrowsTemps)
    (hname : t.builder.methodName = s.builder.methodName) (houter : t.outer = s.outer) :
    Stands place t where
  ownTemps := htemps.trans hs.ownTemps
  hints_eq := by
    rw [← hs.hints_eq, houter]
    cases place.calls.length with
    | zero => rfl
    | succ n => rw [List.take_succ_cons, List.take_succ_cons, List.map_cons, List.map_cons, hname]
  frames := hscope ▸ hs.frames.of_growsTo hg

/-- A scope that owns its frame, of whose surroundings nothing matters. -/
theorem of_frame {kind : ScopeKind} {x : Scope} {chain : List Scope}
    (hchain : s.registry.lexicalChain s.builder.scope = .ok (x :: chain)) (hx : x.kind = kind)
    (hkind : ¬ kind.isClosureLike) (htemps : s.builder.borrowsTemps = false) :
    Stands ⟨kind, []⟩ s where
  ownTemps := htemps
  hints_eq := rfl
  frames := ⟨_, hchain, [], chain.map (·.kind), by rw [List.map_cons, hx, List.nil_append], rfl,
    (fun _ h => nomatch h), hkind⟩

theorem inBlock {method : Symbol} (hs : Stands place s)
    (ht : (s.naming (some method)).OpensChild t .closure (some method)) :
    Stands (place.inBlock method) t where
  ownTemps := ht.fresh.borrowsTemps
  hints_eq := by
    have hhints := hs.hints_eq
    rw [Nesting.inBlock, List.length_cons, List.take_succ_cons, List.map_cons, ht.methodName,
      ht.outer, hints, ← hhints]
    cases place.calls.length <;> rfl
  frames := ht.frames hs.frames rfl

theorem inScope {kind : ScopeKind} (hs : Stands place s) (ht : s.OpensChild t kind none) :
    Stands (place.inScope kind) t := by
  unfold Nesting.inScope
  split
  · next hkind =>
    refine ⟨ht.fresh.borrowsTemps, ?_, ht.frames hs.frames hkind⟩
    have hhints := hs.hints_eq
    rw [List.length_cons, List.take_succ_cons, List.map_cons, ht.methodName, ht.outer, hints,
      hhints]
    cases hints place.calls <;> rfl
  · next hkind =>
    obtain ⟨chain, hchain, -⟩ := hs.frames
    obtain ⟨x, chain', hchain', hx, -⟩ := ht.chain hchain
    exact of_frame hchain' hx hkind ht.fresh.borrowsTemps

theorem steady : Steady Stands where
  adds hs ht := hs.of_same ht.registry ht.scope ht.borrowsTemps ht.methodName ht.outer
  entering hs := hs.of_same (.refl _) rfl rfl rfl rfl
  leaving hs := hs.of_same (.refl _) rfl rfl rfl rfl
  block hs ht := hs.inBlock ht
  nested hs ht := hs.inScope ht

end Stands

/-- The method named defines another one from its block. -/
def definesMethod (call : Option Symbol) : Bool :=
  call.any fun m => m.text = "define_method" || m.text = "define_singleton_method"

/-- A super call here finds the method whose arguments it forwards. -/
def Nesting.Forwards (place : Nesting) : Prop :=
  place.frame = .method ∧ ∀ call ∈ noticed place.calls, ¬ definesMethod call

namespace Stands

open Session

variable {place : Nesting} {s : Session}

theorem any_buildsDefinedMethod (hs : Stands place s) :
    ((s.builder :: s.outer).take place.calls.length).any (·.buildsDefinedMethod) ↔
      ∃ call ∈ noticed place.calls, definesMethod call := by
  rw [← exists_mem_hints (P := fun call => definesMethod call) (by decide), ← hs.hints_eq,
    List.any_eq_true]
  simp only [List.mem_map, exists_exists_and_eq_and]
  exact Iff.rfl

theorem runs_forwardedArgs (hs : Stands place s) :
    ∃ args, s.Runs forwardedArgs? args s ∧ (args.isSome ↔ place.Forwards) := by
  obtain ⟨chain, hchain, inner, outer, hkinds, hlength, hinner, hframe⟩ := hs.frames
  have hdepth : (chain.takeWhile (·.kind.isClosureLike)).length = place.calls.length := by
    have hmap : (chain.takeWhile (·.kind.isClosureLike)).map (·.kind) =
        (chain.map (·.kind)).takeWhile (·.isClosureLike) := by
      rw [List.takeWhile_map]
      rfl
    rw [← List.length_map (f := fun x : Scope => x.kind), hmap, hkinds,
      List.takeWhile_append_of_pos hinner, List.takeWhile_cons_of_neg hframe, List.append_nil,
      hlength]
  have hscope : ∃ x, chain[place.calls.length]? = some x ∧ x.kind = place.frame := by
    have hget : (chain.map (·.kind))[place.calls.length]? = some place.frame := by
      rw [hkinds, ← hlength, List.getElem?_append_right le_rfl, Nat.sub_self, List.getElem?_cons_zero]
    rwa [List.getElem?_map, Option.map_eq_some_iff] at hget
  obtain ⟨x, hx, hkind⟩ := hscope
  refine ⟨_, runs_forwarded.mpr ⟨chain, hchain, rfl, rfl⟩, ?_⟩
  have hany := hs.any_buildsDefinedMethod
  simp only [forwarded?, hdepth, hx]
  split
  · next hdefines =>
    refine iff_of_false (by decide) fun hforwards => ?_
    obtain ⟨call, hcall, hdef⟩ := hany.mp hdefines
    exact hforwards.2 call hcall hdef
  next hdefines =>
  split
  · next hmethod =>
    exact iff_of_false (by decide) fun hforwards => hmethod (hkind.trans hforwards.1)
  next hmethod =>
  have hforwards : place.Forwards :=
    ⟨hkind.symm.trans (not_not.mp hmethod), fun call hcall hdef => hdefines (hany.mpr ⟨call, hcall, hdef⟩)⟩
  split <;> exact iff_of_true rfl hforwards

end Stands

namespace Session

/-- A root scope of this kind is at work, whose surroundings are all there. -/
structure Roots (s : Session) (kind : ScopeKind) : Prop where
  opens : ∃ g : Registry, g.Runs (openRoot s.builder.scope) s.builder s.registry
  outer : s.outer = []
  chain : ∃ x chain, s.registry.lexicalChain s.builder.scope = .ok (x :: chain) ∧ x.kind = kind

theorem Roots.stands {s : Session} {kind : ScopeKind} (hs : s.Roots kind)
    (hkind : ¬ kind.isClosureLike) : Stands ⟨kind, []⟩ s := by
  obtain ⟨g, hopen⟩ := hs.opens
  obtain ⟨x, chain, hchain, hx⟩ := hs.chain
  exact .of_frame hchain hx hkind (opened_of_openRoot hopen).1.borrowsTemps

end Session

open Session TrailM

theorem runs_of_zsuper {place : Nesting} {s t : Session} {h k : Trail} {block : Operand}
    {result : Variable} (hs : Stands place s) (hr : Runs (BuildT.zsuper block) s h result t k) :
    ∃ xs, s.Emits t xs ∧
      (place.Forwards → (∃ z, .zsuper z ∈ xs) ∧ ∀ c, .call c ∉ xs) ∧
      (¬ place.Forwards → Raising ⟨"RuntimeError"⟩ (.ofString BuildT.superOutsideMethod) xs ∧
        t.builder.flags.contains .usesZSuper) := by
  obtain ⟨args, hargs, hforwards⟩ := hs.runs_forwardedArgs
  have hsame : ∀ {args'}, s.Runs forwardedArgs? args' s → args' = args := by
    intro args' hargs'
    cases hargs.symm.trans hargs'
    rfl
  refine (builds_zsuper (I := fun _ => True) (Q := fun _ t _ xs =>
    (place.Forwards → (∃ z, .zsuper z ∈ xs) ∧ ∀ c, .call c ∉ xs) ∧
      (¬ place.Forwards → Raising ⟨"RuntimeError"⟩ (.ofString BuildT.superOutsideMethod) xs ∧
        t.builder.flags.contains .usesZSuper)) ?_ ?_ ?_).result hr
  · intro result t xs hnone hraising _ hflags
    have hnot : ¬ place.Forwards := by
      rw [← hforwards, ← hsame hnone]
      decide
    exact ⟨fun h => absurd h hnot, fun _ => ⟨hraising, hflags⟩⟩
  · intro args' result t call hsome _
    have hdoes : place.Forwards := by
      rw [← hforwards, ← hsame hsome]
      rfl
    refine ⟨fun _ => ⟨⟨call, List.mem_singleton_self _⟩, fun c hc => ?_⟩, fun h => absurd hdoes h⟩
    cases List.mem_singleton.mp hc
  · intro args' result test elseLabel endLabel s₁ s₂ s₃ t rest short long hsome _ _ _ _
    have hdoes : place.Forwards := by
      rw [← hforwards, ← hsame hsome]
      rfl
    refine ⟨fun _ => ⟨⟨short, ?_⟩, fun c hc => ?_⟩, fun h => absurd hdoes h⟩
    · simp only [List.mem_cons, true_or, or_true]
    · simp only [List.mem_cons, reduceCtorEq, List.not_mem_nil, or_self] at hc

/-- A super call that stands in nested blocks is built unless a number leaves its word. It forwards
arguments if the blocks are in a method and no builder knows of a method that defines another, and
it raises otherwise. -/
theorem zsuper_of_points {c : Code} {kind : ScopeKind} {s : Session} {p : Nesting × Session}
    {block : Operand} {h : Trail} (hkind : ¬ kind.isClosureLike) (hs : s.Roots kind)
    (hp : p ∈ (c.build ⟨kind, []⟩ s ⟨[], []⟩).2.points) :
    (∃ t k, (BuildT.zsuper block : TrailM Variable) p.2 h = ((.error .overflow, t), k)) ∨
    ∃ result t k xs, Runs (BuildT.zsuper block) p.2 h result t k ∧ p.2.Emits t xs ∧
      (p.1.Forwards → (∃ z, .zsuper z ∈ xs) ∧ ∀ c, .call c ∉ xs) ∧
      (¬ p.1.Forwards → Raising ⟨"RuntimeError"⟩ (.ofString BuildT.superOutsideMethod) xs ∧
        t.builder.flags.contains .usesZSuper) := by
  have hstands := Code.points_of_build Stands.steady (hs.stands hkind) hp
  obtain ⟨chain, hchain, -⟩ := hstands.frames
  obtain ⟨args, hargs, -⟩ := hstands.runs_forwardedArgs
  have hworks : Works (BuildT.zsuper block : TrailM Variable) p.2 h :=
    works_zsuper (ready_of_ownTemps hstands.ownTemps hchain) hargs
  rcases hworks with ⟨result, t, k, hr⟩ | hoverflow
  · obtain ⟨xs, hxs⟩ := runs_of_zsuper hstands hr
    exact .inr ⟨result, t, k, xs, hr, hxs⟩
  · exact .inl hoverflow

theorem roots_single (kind : ScopeKind) : (single kind).Roots kind where
  opens := ⟨{ (single kind).registry with journal := #[] }, rfl⟩
  outer := rfl
  chain := by
    have hroot : (single kind).registry.scope? ⟨0⟩ = (single kind).registry.scopes[0]? := rfl
    exact ⟨_, [], Registry.lexicalChain_eq hroot, rfl⟩

/-- The builder of the block that defines a method forgets this method while it builds the block
inside. -/
def Code.superInInnerBlock : Code :=
  .block ⟨"define_method"⟩ (.block ⟨"each"⟩ (.seq .mark (.zsuper .nullBlock)))

theorem zsuper_of_points_superInInnerBlock :
    ∃ p ∈ (Code.superInInnerBlock.build ⟨.method, []⟩ (single .method) ⟨[], []⟩).2.points,
      (∃ call ∈ p.1.calls, definesMethod call) ∧ p.1.Forwards ∧
        ((∃ t k, (BuildT.zsuper .nullBlock : TrailM Variable) p.2 ⟨[], []⟩ =
            ((.error .overflow, t), k)) ∨
          ∃ result t k xs, Runs (BuildT.zsuper .nullBlock) p.2 ⟨[], []⟩ result t k ∧
            p.2.Emits t xs ∧ (p.1.Forwards → (∃ z, .zsuper z ∈ xs) ∧ ∀ c, .call c ∉ xs) ∧
            (¬ p.1.Forwards →
              Raising ⟨"RuntimeError"⟩ (.ofString BuildT.superOutsideMethod) xs ∧
                t.builder.flags.contains .usesZSuper)) := by
  have hplaces : (Code.superInInnerBlock.build ⟨.method, []⟩ (single .method) ⟨[], []⟩).2.points.map
      (·.1) = [⟨.method, [some ⟨"each"⟩, some ⟨"define_method"⟩]⟩] := by decide +kernel
  obtain ⟨p, hp, hplace⟩ := List.mem_map.mp (hplaces ▸ List.mem_singleton_self _)
  refine ⟨p, hp, ?_, ?_, zsuper_of_points (by decide) (roots_single .method) hp⟩
  · rw [hplace]
    exact ⟨some ⟨"define_method"⟩, by decide, by decide⟩
  · rw [hplace]
    exact ⟨rfl, by decide⟩

end ScopeIR
