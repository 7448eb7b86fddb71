import ScopeIR.Proofs.Forwarding

/-! How many levels further inside a super call reads what its method received, next to the levels
that the search for class variables counts on the same way. -/

namespace ScopeIR

/-- The static scopes among these, where bodies of `for` loops share the one around them. -/
def staticLevels (closures : List Scope) : Nat := closures.countP fun x => x.kind ≠ .forBody

def forBodies (closures : List Scope) : Nat := closures.countP fun x => x.kind = .forBody

theorem length_eq_levels (closures : List Scope) :
    closures.length = staticLevels closures + forBodies closures := by
  have hcount := List.length_eq_countP_add_countP (fun x : Scope => x.kind = .forBody) (l := closures)
  rw [hcount, Nat.add_comm, staticLevels, forBodies]
  simp

theorem staticLevels_cons (x : Scope) (closures : List Scope) :
    staticLevels (x :: closures) = staticLevels closures + staticLevels [x] := by
  rw [staticLevels, List.countP_cons, staticLevels, staticLevels, List.countP_singleton]

/-- Evals, modules and classes decide where class variables are held; the bodies of metaclasses do not. -/
def ScopeKind.decidesClassVars : ScopeKind → Bool
  | .evalScript | .moduleBody | .classBody => true
  | _ => false

theorem classVarDepth?_cons {x : Scope} (h : ¬ x.kind.decidesClassVars) (outer : List Scope) :
    classVarDepth? (x :: outer) = (classVarDepth? outer).map (· + staticLevels [x]) := by
  rw [classVarDepth?]
  cases hkind : x.kind with
  | evalScript | moduleBody | classBody => exact absurd (hkind ▸ rfl) h
  | _ => simp [ScopeKind.holdsClassVars, staticLevels, hkind]

/-- The search for class variables counts the static scopes on its way and gives up at an eval. -/
theorem classVarDepth_append {closures outer : List Scope}
    (h : ∀ x ∈ closures, x.kind.isClosureLike) :
    classVarDepth? (closures ++ outer) = if ∃ x ∈ closures, x.kind = .evalScript then none
      else (classVarDepth? outer).map (· + staticLevels closures) := by
  induction closures with
  | nil => simp [staticLevels]
  | cons x closures ih =>
    have ih := ih fun y hy => h y (List.mem_cons_of_mem _ hy)
    have hx := h x List.mem_cons_self
    by_cases heval : x.kind = .evalScript
    · rw [List.cons_append, classVarDepth?, if_pos heval, if_pos ⟨x, List.mem_cons_self, heval⟩]
    · have hpassed : ¬ x.kind.decidesClassVars := by
        cases hkind : x.kind with
        | evalScript => exact absurd hkind heval
        | closure | forBody => exact Bool.false_ne_true
        | _ => rw [hkind] at hx; cases hx
      rw [List.cons_append, classVarDepth?_cons hpassed, ih, staticLevels_cons x closures]
      simp only [List.exists_mem_cons_iff, heval, false_or]
      split
      · rfl
      · rw [Option.map_map]
        simp only [Function.comp_def, Nat.add_assoc]

/-- Inside, the depth of a variable is greater by what it was moved. -/
theorem Variable.inside_named {depth : Nat} {v : LocalVar}
    (h : (Variable.named v).HasRoom depth) : ∃ u, (Variable.named v).inside depth = .named u ∧
      u.name = v.name ∧ u.offset = v.offset ∧ u.depth.toNat = v.depth.toNat + depth := by
  have h : v.depth.toNat + depth < UInt64.size := h
  refine ⟨_, rfl, rfl, rfl, ?_⟩
  rw [UInt64.toNat_add, UInt64.toNat_ofNat_of_lt' (Nat.lt_of_le_of_lt (Nat.le_add_left ..) h),
    Nat.mod_eq_of_lt h]

namespace Workshop

variable {config : Config} {ops : List Op} {w : Workshop} {place : Nat} {k : Worker}
  {closures outer : List Scope} {m : Scope}

theorem isClosureLike_of_nests {s : Session} {list : List Instr}
    (hchain : s.registry.lexicalChain s.builder.scope = .ok (closures ++ m :: outer))
    (h : s.Nests closures.length list) : ∀ x ∈ closures, x.kind.isClosureLike := by
  obtain ⟨closures', m', outer', hchain', hlength, hclosures, -⟩ := h.chain
  rw [hchain'] at hchain
  obtain ⟨rfl, -⟩ := List.append_inj (Except.ok.inj hchain) hlength
  exact hclosures

/-- A super call reads the variables of its method from as many levels inside as there are scopes on
the way, static scopes and bodies of `for` loops. The search for class variables counts the static
scopes alone, so it agrees only where no body of a `for` loop is on the way. -/
theorem levels_of_run {list : List Instr} (block : Operand)
    (hrun : (Workshop.empty config).run ops = some w) (hk : w.worker? place = some k)
    (hchain : w.registry.lexicalChain k.builder.scope = .ok (closures ++ m :: outer))
    (hnests : (w.session k).Nests closures.length list) (hlist : Passable closures.length list) :
    (classVarDepth? (closures ++ m :: outer) = if ∃ x ∈ closures, x.kind = .evalScript then none
      else (classVarDepth? (m :: outer)).map (· + staticLevels closures)) ∧
    (∀ v p, .receive (.named v) p ∈ list →
      ∃ u, (Variable.named v).inside closures.length = .named u ∧
        u.name = v.name ∧ u.offset = v.offset ∧
          u.depth.toNat = v.depth.toNat + (staticLevels closures + forBodies closures)) ∧
    ((∃ t, (BuildT.zsuper block : SessionM Variable) (w.session k) = (.error .overflow, t)) ∨
      ∃ x result t xs, w.registry.scope? k.builder.scope = some x ∧
        (w.session k).Runs (BuildT.zsuper block) result t ∧ (w.session k).Emits t xs ∧
          Forwards x block list closures.length result xs) := by
  refine ⟨classVarDepth_append (isClosureLike_of_nests hchain hnests), fun v p hv => ?_,
    forwards_of_tracks block (tracks_of_run hrun) hk hnests hlist⟩
  rw [← length_eq_levels]
  exact Variable.inside_named (hlist.room hv)

/-- A local variable as an argument. -/
def argument : List Instr := [.receive (.named ⟨⟨"x"⟩, 0, 0⟩) (.preRequired 0)]

/-- A method that receives it, and the body of a `for` loop in it. -/
def loopInMethod : List Op :=
  [.newScope .method ⟨"m"⟩ "main.rb" 0 none, .openRoot ⟨0⟩] ++
    argument.map (fun i => .act 0 (.emit i)) ++
    [.newScope .forBody ⟨"each"⟩ "main.rb" 1 (some ⟨0⟩), .openInside 0 ⟨1⟩ false]

theorem levels_of_run_loopInMethod : ∃ w k x m,
    (Workshop.empty {}).run loopInMethod = some w ∧ w.worker? 1 = some k ∧
      w.registry.lexicalChain k.builder.scope = .ok ([x] ++ [m]) ∧ staticLevels [x] = 0 ∧
      classVarDepth? ([x] ++ [m]) = classVarDepth? [m] ∧
      (∃ u, (Variable.named ⟨⟨"x"⟩, 0, 0⟩).inside 1 = .named u ∧ u.depth.toNat = 1) ∧
        ∃ y result t xs, (w.session k).Runs (BuildT.zsuper .nullBlock) result t ∧
          (w.session k).Emits t xs ∧ Forwards y .nullBlock argument 1 result xs := by
  have hrun : ((Workshop.empty {}).run loopInMethod).isSome := by decide +kernel
  obtain ⟨w, hw⟩ := Option.isSome_iff_exists.mp hrun
  have hfacts : ∀ v ∈ (Workshop.empty {}).run loopInMethod, ∃ k ∈ v.worker? 1,
      ((BuildT.zsuper .nullBlock : SessionM Variable) (v.session k)).1.isOk ∧
      k.builder.scope = ⟨1⟩ ∧ k.builder.buildsDefinedMethod = false ∧
      (∃ x ∈ v.registry.scope? ⟨1⟩, x.kind = .forBody ∧ x.parent = some ⟨0⟩) ∧
      (∃ m ∈ v.registry.scope? ⟨0⟩, m.id = ⟨0⟩ ∧ m.kind = .method ∧ m.parent = none) ∧
      ∃ b ∈ (v.session k).outer[0]?, b.scope = ⟨0⟩ ∧ b.instrs.toList = argument := by
    decide +kernel
  obtain ⟨k, hk, hok, hscope, hdefines, ⟨x, hx, hkind, hparent⟩, ⟨m, hm, hid, hmkind, hmparent⟩, b,
    hb, hbscope, hinstrs⟩ := hfacts w hw
  have hchain : w.registry.lexicalChain k.builder.scope = .ok ([x] ++ [m]) :=
    hscope ▸ Registry.lexicalChain_of_pair hx hparent (by decide) hm hmparent
  have hnests : (w.session k).Nests [x].length argument :=
    Session.nests_one hchain (hkind ▸ rfl) hmkind hb (hbscope.trans hid.symm) hinstrs hdefines
  have hlist : Passable [x].length argument := by
    constructor
    · intro r p h
      obtain ⟨rfl, -⟩ := Instr.receive.inj (List.mem_singleton.mp h)
      show (0 : UInt64).toNat + 1 < UInt64.size
      decide
    · simp [argument]
  have hlevels : staticLevels [x] = 0 := by simp [staticLevels, hkind]
  have hbodies : forBodies [x] = 1 := by simp [forBodies, hkind]
  obtain ⟨hdepth, hreads, hbuilt⟩ := levels_of_run .nullBlock hw hk hchain hnests hlist
  obtain ⟨u, hu, -, -, hudepth⟩ := hreads ⟨⟨"x"⟩, 0, 0⟩ (.preRequired 0) List.mem_cons_self
  refine ⟨w, k, x, m, hw, hk, hchain, hlevels, ?_, ⟨u, hu, ?_⟩, ?_⟩
  · rw [hdepth, if_neg (by simp [hkind]), hlevels]
    exact Option.map_id'
  · rw [hudepth, hlevels, hbodies]
    rfl
  · rcases hbuilt with ⟨t, ht⟩ | ⟨y, result, t, xs, -, h⟩
    · rw [ht] at hok
      cases hok
    · exact ⟨y, result, t, xs, h⟩

end Workshop

end ScopeIR
