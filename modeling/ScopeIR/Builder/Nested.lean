import ScopeIR.Builder.Exits

/-! Scopes built inside the scope that is being built. -/

namespace ScopeIR.BuildT

open Session

variable {m : Type → Type} [Monad m]

/-- Runs `body` on a builder of an existing scope, nested in the current builder. A builder for a
hoisted block borrows the temporaries of the one it is hoisted into. -/
def inScope (id : ScopeId) (borrowsTemps : Bool) {α : Type} (body : BuildT m α) :
    BuildT m α := do
  let child ← openBuilder id borrowsTemps (← current).coverage
  within child body

def child (kind : ScopeKind) (name : Symbol) (methodName : Option Symbol) (body : BuildT m Unit) :
    BuildT m ScopeId := do
  let b ← current
  let file := (← ownScope).file
  let id ← RegistryM.newScope kind name file b.line.last (some b.scope)
  inScope id false do
    updateBuilder fun b => { b with methodName }
    if kind.isClosure then placeClosureStart
    body
    finish

/-- Builds a scope nested in the current one and finishes it. -/
def nested (kind : ScopeKind) (name : Symbol) (body : BuildT m Unit) : BuildT m ScopeId :=
  child kind name none body

/-- Builds the block passed to a call of the named method. Both builders know that name while the
block is built. -/
def block (methodName : Symbol) (body : BuildT m Unit) : BuildT m Operand := do
  let outer := (← current).methodName
  updateBuilder fun b => { b with methodName := some methodName }
  let built ← attempt (child .closure ⟨"_CLOSURE_"⟩ (some methodName) body)
  updateBuilder fun b => { b with methodName := outer }
  return .closure (← settle built)

end ScopeIR.BuildT
