import ScopeIR.Builder.Calls

/-! Class variables and the module that holds them. -/

namespace ScopeIR

/-- How many static scopes up the class variables of the innermost scope of a chain are held, where
that is known. Behind an eval it is not, and bodies of `for` loops share their parent's static
scope. -/
def classVarDepth? : List Scope → Option Nat
  | [] => none
  | s :: outer =>
    if s.kind = .evalScript then none
    else if s.kind.holdsClassVars then some 0
    else if s.kind = .forBody then classVarDepth? outer
    else (classVarDepth? outer).map (· + 1)

namespace Session

/-- The holder of class variables, looked up when the program runs if it is not known before. -/
def classVarContainer (declares : Bool) : SessionM Operand := do
  let chain ← (← get).registry.lexicalChain (← current).scope
  match classVarDepth? chain with
  | some depth => return .scopeModule depth.toUInt64
  | none =>
    let r ← temp
    emit (.classVarModule r .currentScope (if declares then none else some (.var .self)))
    return r

/-- Whether the code runs at the top level of a script, outside of every module body. -/
def isTopScope : SessionM Bool := do
  let registry := (← get).registry
  let b ← current
  let frame ← registry.nearestFrame b.scope
  let chain ← registry.lexicalChain frame
  let kind := (← registry.scope frame).kind
  return (kind = .scriptBody || b.evalType = some .instanceEval) &&
    !chain.any (·.kind.isModuleBody)

def raiseToplevelClassVar : SessionM Operand :=
  raiseError ⟨"RuntimeError"⟩ (.ofString "class variable access from toplevel")

def getClassVar (name : Symbol) : SessionM Operand := do
  if ← isTopScope then raiseToplevelClassVar
  else
    let container ← classVarContainer false
    let r ← temp
    emit (.getClassVar r container name)
    return r

/-- Assigns a class variable, or declares it. -/
def putClassVar (declares : Bool) (name : Symbol) (value : Operand) : SessionM Operand := do
  if ← isTopScope then raiseToplevelClassVar
  else
    let container ← classVarContainer declares
    emit (.putClassVar container name value)
    return value

end Session

end ScopeIR
