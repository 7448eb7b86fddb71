import ScopeIR.Proofs.Proceeding
import ScopeIR.Proofs.CarriedValues
import ScopeIR.Proofs.Enclosure

/-! Instructions spelled out as lists of tokens. A token is a label, a variable, or something that
holds neither. No two instructions are spelled alike, so what a renaming does to the spelling is all
that it does. -/

namespace ScopeIR

theorem eq_of_toList {α : Type} {a b : Option α} (h : a.toList = b.toList) : a = b := by
  rw [← Option.head?_toList (o := a), h, Option.head?_toList]

/-- An atom that is no variable. -/
abbrev Constant : Type := {a : Atom // ∀ v, a ≠ .var v}

/-- What an instruction is, apart from the labels, variables and operands in it. -/
inductive Opcode where
  | label
  | jump
  | nop
  | branch (op : BranchOp)
  | lineNumber (line : Int32) (coverage : Coverage)
  | tracePoint (event : TraceEvent) (method : Option Symbol) (file : String) (line : Int32)
  | copy
  | call (type : CallType) (name : Symbol) (flags : CallFlags) (refined : Bool)
  | zsuper (scope : ScopeId) (flags : CallFlags) (refined : Bool)
  | aliasMethod
  | searchConst (name : Symbol) (publicOnly : Bool)
  | searchModuleConst (name : Symbol) (publicOnly : Bool)
  | classVarModule
  | getClassVar (name : Symbol)
  | putClassVar (name : Symbol)
  | getGlobal (name : Symbol)
  | putGlobal (name : Symbol)
  | helperCall (helper : Helper)
  | loadImplicitClosure
  | receive (parameter : Parameter)
  | regionStart
  | regionEnd
  | receiveException
  | raise
  | threadPoll
  | checkLocalJump (maybeLambda : Bool)
  | ret
  | nonlocalReturn (method : Option Symbol)
  | breakOut (scope : ScopeId)

/-- A piece of an instruction. Only labels and variables hold names. -/
inductive Token where
  | label (l : Label)
  | var (v : Variable)
  | const (c : Constant)
  | hash (size : Nat)
  | splat
  /-- With the numbers of labels, variables and operands that follow. -/
  | opcode (c : Opcode) (labels vars operands : Nat)

/-- Labels and variables are replaced by their images, and everything else stays. -/
def Token.map (f : Label → Label) (g : Variable → Variable) : Token → Token
  | .label l => .label (f l)
  | .var v => .var (g v)
  | t => t

def Atom.token : Atom → Token
  | .var v => .var v
  | .nil => .const ⟨.nil, nofun⟩
  | .boolean b => .const ⟨.boolean b, nofun⟩
  | .fixnum n => .const ⟨.fixnum n, nofun⟩
  | .symbol s => .const ⟨.symbol s, nofun⟩
  | .string bytes => .const ⟨.string bytes, nofun⟩
  | .undefined => .const ⟨.undefined, nofun⟩
  | .currentScope => .const ⟨.currentScope, nofun⟩
  | .scopeModule depth => .const ⟨.scopeModule depth, nofun⟩
  | .nullBlock => .const ⟨.nullBlock, nofun⟩
  | .objectClass => .const ⟨.objectClass, nofun⟩
  | .closure id => .const ⟨.closure id, nofun⟩

theorem Atom.token_injective : Function.Injective Atom.token := by
  intro a b h
  cases a <;> cases b <;> cases h <;> rfl

namespace Operand

variable {os os' : List Operand}

mutual

/-- What the operand is made of, from the outside in. -/
def spelling : Operand → List Token
  | .atom a => [a.token]
  | .hash pairs => .hash pairs.length :: spellPairs pairs
  | .splat array => .splat :: array.spelling

def spellPairs : List (Operand × Operand) → List Token
  | [] => []
  | (k, v) :: rest => k.spelling ++ (v.spelling ++ spellPairs rest)

end

def spellAll : List Operand → List Token
  | [] => []
  | o :: os => o.spelling ++ spellAll os

mutual

/-- A list that begins with the spelling of an operand determines the operand and the rest. -/
theorem spelling_append_inj : ∀ {o o' : Operand} {r r' : List Token},
    o.spelling ++ r = o'.spelling ++ r' → o = o' ∧ r = r'
  | .atom a, o', r, r', h => by
    cases o' with
    | atom a' =>
      obtain ⟨ha, hr⟩ := List.cons.inj h
      exact ⟨congrArg _ (Atom.token_injective ha), hr⟩
    | hash | splat => cases a <;> cases h
  | .hash pairs, o', r, r', h => by
    cases o' with
    | hash pairs' =>
      obtain ⟨hlength, h⟩ := List.cons.inj h
      obtain ⟨hpairs, hr⟩ := spellPairs_append_inj (Token.hash.inj hlength) h
      exact ⟨congrArg _ hpairs, hr⟩
    | atom a' => cases a' <;> cases h
    | splat => cases h
  | .splat array, o', r, r', h => by
    cases o' with
    | splat array' =>
      obtain ⟨harray, hr⟩ := spelling_append_inj (List.cons.inj h).2
      exact ⟨congrArg _ harray, hr⟩
    | atom a' => cases a' <;> cases h
    | hash => cases h

theorem spellPairs_append_inj : ∀ {ps ps' : List (Operand × Operand)} {r r' : List Token},
    ps.length = ps'.length → spellPairs ps ++ r = spellPairs ps' ++ r' → ps = ps' ∧ r = r'
  | [], ps', _, _, hlength, h => by
    obtain rfl := List.length_eq_zero_iff.mp hlength.symm
    exact ⟨rfl, h⟩
  | (k, v) :: ps, [], _, _, hlength, _ => nomatch hlength
  | (k, v) :: ps, (k', v') :: ps', r, r', hlength, h => by
    simp only [spellPairs, List.append_assoc] at h
    obtain ⟨hk, h⟩ := spelling_append_inj h
    obtain ⟨hv, h⟩ := spelling_append_inj h
    obtain ⟨hps, hr⟩ := spellPairs_append_inj (Nat.succ.inj hlength) h
    exact ⟨by rw [hk, hv, hps], hr⟩

end

theorem spelling_injective : Function.Injective spelling := by
  intro o o' h
  have hnil : o.spelling ++ [] = o'.spelling ++ [] := congrArg (· ++ []) h
  exact (spelling_append_inj hnil).1

theorem spellAll_inj (hlength : os.length = os'.length) (h : spellAll os = spellAll os') :
    os = os' := by
  induction os generalizing os' with
  | nil => exact (List.length_eq_zero_iff.mp hlength.symm).symm
  | cons o os ih =>
    cases os' with
    | nil => cases hlength
    | cons o' os' =>
      obtain ⟨ho, hos⟩ := spelling_append_inj h
      rw [ho, ih (Nat.succ.inj hlength) hos]

theorem length_mapPairs {f : Variable → Variable} (pairs : List (Operand × Operand)) :
    (mapPairs f pairs).length = pairs.length := by
  induction pairs with
  | nil => rfl
  | cons p pairs ih => exact congrArg Nat.succ ih

mutual

theorem spelling_mapVars (f : Label → Label) (g : Variable → Variable) :
    ∀ o : Operand, (o.mapVars g).spelling = o.spelling.map (Token.map f g)
  | .atom a => by cases a <;> rfl
  | .hash pairs => by
    simp only [mapVars, spelling, length_mapPairs, spellPairs_mapPairs f g pairs, List.map_cons,
      Token.map]
  | .splat array => congrArg (Token.splat :: ·) (spelling_mapVars f g array)

theorem spellPairs_mapPairs (f : Label → Label) (g : Variable → Variable) :
    ∀ pairs : List (Operand × Operand),
      spellPairs (mapPairs g pairs) = (spellPairs pairs).map (Token.map f g)
  | [] => rfl
  | (k, v) :: rest => by
    simp only [mapPairs, spellPairs, spelling_mapVars f g k, spelling_mapVars f g v,
      spellPairs_mapPairs f g rest, List.map_append]

end

theorem spellAll_mapVars (f : Label → Label) (g : Variable → Variable) (os : List Operand) :
    spellAll (os.map (mapVars g)) = (spellAll os).map (Token.map f g) := by
  induction os with
  | nil => rfl
  | cons o os ih =>
    rw [List.map_cons, spellAll, spelling_mapVars f g, ih, spellAll, List.map_append]

end Operand

namespace Instr

variable {ρ : Renaming} {i j : Instr}

def opcode : Instr → Opcode
  | .label _ => .label
  | .jump _ => .jump
  | .nop => .nop
  | .branch op .. => .branch op
  | .lineNumber line coverage => .lineNumber line coverage
  | .tracePoint t => .tracePoint t.event t.method t.file t.line
  | .copy .. => .copy
  | .call c => .call c.type c.name c.flags c.refined
  | .zsuper z => .zsuper z.scope z.flags z.refined
  | .aliasMethod .. => .aliasMethod
  | .searchConst _ _ name publicOnly => .searchConst name publicOnly
  | .searchModuleConst _ _ name publicOnly => .searchModuleConst name publicOnly
  | .classVarModule .. => .classVarModule
  | .getClassVar _ _ name => .getClassVar name
  | .putClassVar _ name _ => .putClassVar name
  | .getGlobal _ name => .getGlobal name
  | .putGlobal name _ => .putGlobal name
  | .helperCall _ helper _ => .helperCall helper
  | .loadImplicitClosure _ => .loadImplicitClosure
  | .receive _ parameter => .receive parameter
  | .regionStart _ => .regionStart
  | .regionEnd => .regionEnd
  | .receiveException _ => .receiveException
  | .raise _ => .raise
  | .threadPoll => .threadPoll
  | .checkLocalJump maybeLambda => .checkLocalJump maybeLambda
  | .ret _ => .ret
  | .nonlocalReturn _ method => .nonlocalReturn method
  | .breakOut _ scope => .breakOut scope

/-- The labels that stand in the instruction. -/
def labels : Instr → List Label
  | .label l | .jump l | .regionStart l | .branch _ l .. => [l]
  | _ => []

/-- The variables that stand in the instruction itself, and not in its operands. -/
def ownVars : Instr → List Variable
  | .tracePoint t => [t.module]
  | .call c => c.result.toList
  | .zsuper z => [z.result]
  | .copy r _ | .searchConst r .. | .searchModuleConst r .. | .classVarModule r ..
  | .getClassVar r .. | .getGlobal r _ | .helperCall r .. | .loadImplicitClosure r
  | .receive r _ | .receiveException r => [r]
  | _ => []

def operands : Instr → List Operand
  | .branch _ _ value test => value :: test.toList
  | .call c => c.receiver :: c.block :: c.args
  | .zsuper z => z.receiver :: z.block :: z.args
  | .classVarModule _ start object => start :: object.toList
  | .helperCall _ _ args => args
  | .aliasMethod o o' | .putClassVar o _ o' => [o, o']
  | .copy _ o | .searchConst _ o .. | .searchModuleConst _ o .. | .getClassVar _ o _
  | .putGlobal _ o | .raise o | .ret o | .nonlocalReturn o _ | .breakOut o _ => [o]
  | _ => []

def spelling (i : Instr) : List Token :=
  .opcode i.opcode i.labels.length i.ownVars.length i.operands.length ::
    (i.labels.map .label ++ (i.ownVars.map .var ++ Operand.spellAll i.operands))

/-- An instruction is no more than its code, its labels, its variables and its operands. -/
theorem eq_of_parts (hopcode : i.opcode = j.opcode) (hlabels : i.labels = j.labels)
    (hvars : i.ownVars = j.ownVars) (hoperands : i.operands = j.operands) : i = j := by
  -- only where both are made by one constructor can the codes agree
  cases i <;> cases j <;> try (cases hopcode; done)
  case call.call c c' =>
    obtain ⟨type, result, name, receiver, args, block, flags, refined⟩ := c
    obtain ⟨type', result', name', receiver', args', block', flags', refined'⟩ := c'
    obtain ⟨rfl, rfl, rfl, rfl⟩ := Opcode.call.inj hopcode
    obtain rfl := eq_of_toList hvars
    cases hoperands
    rfl
  case zsuper.zsuper z z' =>
    cases z
    cases z'
    cases hopcode
    cases hvars
    cases hoperands
    rfl
  case tracePoint.tracePoint t t' =>
    cases t
    cases t'
    cases hopcode
    cases hvars
    rfl
  case branch.branch =>
    obtain ⟨rfl, htest⟩ := List.cons.inj hoperands
    obtain rfl := eq_of_toList htest
    cases hopcode
    cases hlabels
    rfl
  case classVarModule.classVarModule =>
    obtain ⟨rfl, hobject⟩ := List.cons.inj hoperands
    obtain rfl := eq_of_toList hobject
    cases hvars
    rfl
  all_goals
    cases hopcode
    cases hlabels
    cases hvars
    cases hoperands
    rfl

theorem spelling_injective : Function.Injective spelling := by
  intro i j h
  obtain ⟨hhead, h⟩ := List.cons.inj h
  obtain ⟨hopcode, hlabels, hvars, hoperands⟩ := Token.opcode.inj hhead
  obtain ⟨hl, h⟩ := List.append_inj h (by rw [List.length_map, List.length_map, hlabels])
  obtain ⟨hv, ho⟩ := List.append_inj h (by rw [List.length_map, List.length_map, hvars])
  exact eq_of_parts hopcode (List.map_injective_iff.mpr (fun _ _ => Token.label.inj) hl)
    (List.map_injective_iff.mpr (fun _ _ => Token.var.inj) hv) (Operand.spellAll_inj hoperands ho)

@[simp] theorem opcode_rename : (i.rename ρ).opcode = i.opcode := by cases i <;> rfl

@[simp] theorem labels_rename : (i.rename ρ).labels = i.labels.map ρ.label := by cases i <;> rfl

@[simp] theorem ownVars_rename : (i.rename ρ).ownVars = i.ownVars.map ρ.var := by
  cases i with
  | call c => exact Option.toList_map
  | _ => rfl

@[simp] theorem operands_rename : (i.rename ρ).operands = i.operands.map ρ.operand := by
  cases i with
  | branch _ _ value test => exact congrArg (ρ.operand value :: ·) Option.toList_map
  | classVarModule _ start object => exact congrArg (ρ.operand start :: ·) Option.toList_map
  | _ => rfl

/-- Each label and each variable is replaced, wherever it stands. -/
theorem spelling_rename (ρ : Renaming) (i : Instr) :
    (i.rename ρ).spelling = i.spelling.map (Token.map ρ.label ρ.var) := by
  have hoperands : Operand.spellAll (i.operands.map ρ.operand) = _ :=
    Operand.spellAll_mapVars ρ.label ρ.var i.operands
  simp only [spelling, opcode_rename, labels_rename, ownVars_rename, operands_rename,
    List.length_map, hoperands, List.map_cons, List.map_append, List.map_map]
  rfl

/-- Nothing else is replaced. -/
theorem eq_rename_iff : j = i.rename ρ ↔ j.spelling = i.spelling.map (Token.map ρ.label ρ.var) :=
  ⟨fun h => h ▸ spelling_rename ρ i,
    fun h => spelling_injective (h.trans (spelling_rename ρ i).symm)⟩

theorem rename_empty (i : Instr) : i.rename ∅ = i := by
  refine (eq_rename_iff.mpr ?_).symm
  have hid : Token.map (∅ : Renaming).label (∅ : Renaming).var = id :=
    funext fun t => by cases t <;> rfl
  rw [hid, List.map_id]

theorem rename_rename {σ τ : Renaming} (hlabels : ∀ l, τ.label l = σ.label (ρ.label l))
    (hvars : ∀ v, τ.var v = σ.var (ρ.var v)) : (i.rename ρ).rename σ = i.rename τ := by
  rw [eq_rename_iff, spelling_rename, spelling_rename, List.map_map]
  refine List.map_congr_left fun t _ => ?_
  cases t with
  | label l => exact congrArg Token.label (hlabels l).symm
  | var v => exact congrArg Token.var (hvars v).symm
  | _ => rfl

theorem scopeFlags_rename : (i.rename ρ).scopeFlags = i.scopeFlags := by
  cases i with
  | call c =>
    have hblock : (ρ.operand c.block).closure? = c.block.closure? :=
      Operand.closure?_mapVars ρ.var c.block
    rw [rename, scopeFlags_call, scopeFlags_call, hblock]
  | receive r parameter => cases parameter <;> rfl
  | _ => rfl

end Instr

/-- The copy under a renaming is the instruction that is spelled with the image of each label and
each variable and with nothing else changed. So nothing changes where nothing has an image, two
renamings one after the other are one, the result and the target have their images, and the block
and what the instruction reveals about its scope stay what they are. -/
theorem Instr.rename_images (ρ : Renaming) (i : Instr) :
    (∀ j, j = i.rename ρ ↔ j.spelling = i.spelling.map (Token.map ρ.label ρ.var)) ∧
    i.rename ∅ = i ∧
    (∀ σ τ : Renaming, (∀ l, τ.label l = σ.label (ρ.label l)) →
      (∀ v, τ.var v = σ.var (ρ.var v)) → (i.rename ρ).rename σ = i.rename τ) ∧
    (i.rename ρ).result? = i.result?.map ρ.var ∧
    (i.rename ρ).target? = i.target?.map ρ.label ∧
    (i.rename ρ).closure? = i.closure? ∧
    (i.rename ρ).scopeFlags = i.scopeFlags :=
  ⟨fun _ => eq_rename_iff, rename_empty i, fun _ _ => rename_rename, result?_rename ρ i,
    target?_rename, closure?_rename ρ i, scopeFlags_rename⟩

/-- A branch on a variable that stands in a splat in a hash. -/
def Instr.nestedTest (n : UInt64) : Instr :=
  .branch .notEqual ⟨"LBL", n⟩
    (.hash [(.symbol ⟨"k"⟩, .splat (.var (.temp (.plain n)))), (.nil, .var .self)]) none

/-- Label and variable `m` become label and variable `n`. -/
def Renaming.moving (m n : UInt64) (ρ : Renaming) : Renaming :=
  (ρ.insertLabel ⟨"LBL", m⟩ ⟨"LBL", n⟩).insertVar (.temp (.plain m)) (.temp (.plain n))

/-- To move it twice is to move it once, all the way. -/
theorem Instr.rename_images_nestedTest :
    ((nestedTest 0).rename (Renaming.moving 0 1 ∅)).rename (Renaming.moving 1 2 ∅) = nestedTest 2 ∧
      (nestedTest 0).rename (Renaming.moving 0 1 ∅) = nestedTest 1 := by
  obtain ⟨-, -, htwice, -⟩ := rename_images (Renaming.moving 0 1 ∅) (nestedTest 0)
  rw [htwice (Renaming.moving 1 2 ∅) (Renaming.moving 0 2 (Renaming.moving 1 2 ∅))]
  · decide +kernel
  · intro l
    by_cases h₀ : l = ⟨"LBL", 0⟩
    · subst h₀
      decide
    · have hsame : (Renaming.moving 0 1 ∅).label l = l := Renaming.label_insertLabel_ne h₀
      rw [hsame]
      exact Renaming.label_insertLabel_ne h₀
  · intro v
    by_cases h₀ : v = .temp (.plain 0)
    · subst h₀
      decide
    · have hsame : (Renaming.moving 0 1 ∅).var v = v := Renaming.var_insertVar_ne h₀
      rw [hsame]
      exact Renaming.var_insertVar_ne h₀

end ScopeIR
