import ScopeIR.Builder.Branching
import ScopeIR.Builder.Calls
import ScopeIR.Operand.Depth

/-! Super calls without an argument list, which forward what the enclosing method received. -/

namespace ScopeIR

/-- Stands for the key of a hash that holds all further keywords. -/
def Symbol.keywordRest : Symbol := ⟨"%kw_rest_arg"⟩

/-- The operand that forwards a received positional argument. -/
def Instr.positional? : Instr → Option Operand
  | .receive r .rest => some (.splat r)
  | .receive r (.preRequired _) | .receive r (.optional _) | .receive r (.postRequired _) =>
    some r
  | _ => none

def Instr.keyword? : Instr → Option (Operand × Operand)
  | .receive r (.keyword key) => some (.symbol key, r)
  | _ => none

def Instr.keywordRest? : Instr → Option (Operand × Operand)
  | .receive r .keywordRest => some (.symbol .keywordRest, r)
  | _ => none

/-- What a method received, seen from `depth` closures further inside. -/
structure ForwardedArgs where
  positional : List Operand
  keywords : List (Operand × Operand)
  depth : Nat
  receivesKeywords : Bool

/-- Hashes of further keywords go before single ones, the last received first. -/
def ForwardedArgs.ofInstrs (instrs : List Instr) (depth : Nat) (receivesKeywords : Bool) :
    ForwardedArgs where
  positional := instrs.filterMap Instr.positional?
  keywords := (instrs.filterMap Instr.keywordRest?).reverse ++ instrs.filterMap Instr.keyword?
  depth
  receivesKeywords

def Builder.buildsDefinedMethod (b : Builder) : Bool :=
  b.methodName.any fun m => m.text = "define_method" || m.text = "define_singleton_method"

namespace Session

/-- The arguments to forward from here. There are none outside of methods, nor where a block on the
way out defines a method. A method that is no longer being built is read from its scope. -/
def forwardedArgs? : SessionM (Option ForwardedArgs) := do
  let s ← get
  let chain ← s.registry.lexicalChain s.builder.scope
  let depth := (chain.takeWhile (·.kind.isClosureLike)).length
  let builders := s.builder :: s.outer
  if (builders.take depth).any (·.buildsDefinedMethod) then return none
  match chain[depth]? with
  | none => return none
  | some scope =>
    if scope.kind ≠ .method then return none
    match builders[depth]? with
    | some b =>
      return some (.ofInstrs b.instrs.toList depth (b.flags.contains .receivesKeywordArgs))
    | none =>
      let instrs := scope.instrs.getD []
      return some (.ofInstrs instrs depth (scope.flags.contains .receivesKeywordArgs))

/-- The operands as they read `depth` closures further inside. -/
def deepened (depth : Nat) (os : List Operand) : SessionM (List Operand) := do
  orOverflow (os.mapM (Operand.deepen depth.toUInt64))

end Session

namespace BuildT

open Session

variable {m : Type → Type} [Monad m]

def superOutsideMethod : String :=
  "implicit argument passing of super from method defined by define_method() is not supported. " ++
    "Specify all arguments explicitly."

/-- Calls the overridden method with what the enclosing method received. If that includes one hash
of keywords and nothing else by keyword, it is passed only when it is not empty. -/
def zsuper (block : Operand) : BuildT m Variable := do
  let args? ← forwardedArgs?
  let result ← temp
  let some args := args? |
    insertFlags {.usesZSuper}
    let _ ← raiseError ⟨"RuntimeError"⟩ (.ofString superOutsideMethod)
    return result
  let scope ← ownScope
  RegistryM.record
    (.superForwarded scope.id args.depth args.positional.length args.keywords.length)
  let forward (args : List Operand) (flags : CallFlags) : Instr :=
    .zsuper ⟨scope.id, result, .var .self, args, block, flags, scope.refined⟩
  match args.keywords with
  | [(.symbol key, rest)] =>
    if key = .keywordRest then
      let flags : CallFlags := {.keyword, .keywordRest}
      let rest ← deepened args.depth [rest]
      let positional ← deepened args.depth args.positional
      let test ← temp
      emit (.helperCall test .isHashEmpty rest)
      ifElse test (.boolean true)
        (emit (forward positional flags))
        (emit (forward (positional ++ rest) flags))
    else forwardAll args forward
  | _ => forwardAll args forward
  return result
where
  forwardAll (args : ForwardedArgs) (forward : List Operand → CallFlags → Instr) :
      BuildT m Unit := do
    let all := if args.receivesKeywords then args.positional ++ [.hash args.keywords]
      else args.positional
    emit (forward (← deepened args.depth all) (if args.receivesKeywords then {.keyword} else ∅))

end BuildT

end ScopeIR
