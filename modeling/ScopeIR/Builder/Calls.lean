import ScopeIR.Builder.Session

/-! Calls, constants and the errors raised by code that is built. -/

namespace ScopeIR.Session

def renameMethod (newName oldName : Operand) : SessionM Operand := do
  emit (.aliasMethod newName oldName)
  return .nil

/-- Looks a constant up from the current scope outwards. -/
def searchConst (name : Symbol) : SessionM Operand := do
  let r ← temp
  emit (.searchConst r .currentScope name false)
  return r

/-- Looks a constant up in a module, among its public constants. -/
def searchModuleConst (module : Operand) (name : Symbol) : SessionM Operand := do
  let r ← temp
  emit (.searchModuleConst r module name true)
  return r

/-- A call is marked if its scope may use refinements. -/
def call (result : Variable) (type : CallType) (receiver : Operand) (name : Symbol)
    (args : List Operand) (block : Operand) (flags : CallFlags) : SessionM Variable := do
  let refined := (← ownScope).refined
  emit (.call ⟨type, some result, name, receiver, args, block, flags, refined⟩)
  return result

/-- A call without splats, keywords and block. -/
def plainCall (result : Variable) (type : CallType) (receiver : Operand) (name : Symbol)
    (args : List Operand) : SessionM Variable :=
  call result type receiver name args .nullBlock ∅

/-- Calls `Kernel.raise` with the class of that name and a message. -/
def raiseError (className : Symbol) (message : Operand) : SessionM Operand := do
  let exceptionClass ← searchModuleConst .objectClass className
  let kernel ← searchModuleConst .objectClass ⟨"Kernel"⟩
  let r ← temp
  return ← plainCall r .normal kernel ⟨"raise"⟩ [exceptionClass, message]

def typeError (message : String) : SessionM Operand :=
  raiseError ⟨"TypeError"⟩ (.ofString message)

end ScopeIR.Session
