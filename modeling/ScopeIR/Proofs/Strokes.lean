import ScopeIR.Proofs.Arena
import ScopeIR.Proofs.Forwarding

/-! The work of one builder, stroke by stroke: what it asks of the registry, how it arranges its own
state, and the instructions it adds to its scope's list, of which it tells the listener. -/

namespace ScopeIR

/-- What callers promise: that the scopes they name are there, and that lines, depths and flags are
within limits. -/
structure Terms where
  names : Prop
  limits : Prop

def Operand.closure? : Operand → Option ScopeId
  | .closure id => some id
  | _ => none

theorem Operand.closure?_mapVars (f : Variable → Variable) (o : Operand) :
    (o.mapVars f).closure? = o.closure? := by
  cases o with
  | atom a => cases a <;> rfl
  | hash | splat => rfl

theorem Instr.closure?_call (c : Call) : (Instr.call c).closure? = c.block.closure? := by
  obtain ⟨_, _, _, _, _, block, _, _⟩ := c
  cases block with
  | atom a => cases a <;> rfl
  | hash | splat => rfl

theorem Instr.closure?_zsuper (z : ZSuper) : (Instr.zsuper z).closure? = z.block.closure? := by
  obtain ⟨_, _, _, _, block, _, _⟩ := z
  cases block with
  | atom a => cases a <;> rfl
  | hash | splat => rfl

theorem Instr.scopeFlags_call (c : Call) : (Instr.call c).scopeFlags =
    namedCallFlags c.name.text ∪ c.block.closure?.elim ∅ fun _ => {.canCaptureCallersBinding} := by
  rw [scopeFlags]
  cases c.block with
  | atom a => cases a <;> rfl
  | hash | splat => rfl

namespace Registry

variable {g g' : Registry} {i : Instr}

/-- The closure that the instruction passes as a block is there. -/
def Knows (g : Registry) (i : Instr) : Prop := ∀ c, i.closure? = some c → g.Has c

theorem Knows.of_none (h : i.closure? = none) : g.Knows i := fun c hc => by
  rw [h] at hc
  cases hc

theorem Knows.serves (h : g.Knows i) (hg : g.Serves g') : g'.Knows i := fun c hc => hg.has (h c hc)

/-- One of the numbers that are counted up has reached the end of its word. -/
def Full (g : Registry) : Prop :=
  g.scopes.size = UInt64.size ∨ g.nextClosureId.toNat + 1 = UInt64.size ∨
    ∃ id x, g.scope? id = some x ∧
      (x.nextLabel.toNat + 1 = UInt64.size ∨ x.nextTemp.toNat + 1 = UInt64.size)

end Registry

/-- What a builder relies on: its scope is there, and so are the closures that wait in its ensure
bodies. The line after the one it has noted can be written. -/
structure Builder.Fit (p : Terms) (g : Registry) (b : Builder) : Prop where
  scope : g.Has b.scope
  holds : p.names → b.Holds g.Knows
  last : p.limits → b.line.last ≠ Int32.maxValue
  pending {line : Int32} : p.limits → b.line.pending = some line → line ≠ Int32.maxValue

theorem Builder.Fit.later {p : Terms} {g g' : Registry} {b : Builder} (h : b.Fit p g)
    (hg : ∀ {id}, g.Has id → g'.Has id) : b.Fit p g' where
  scope := hg h.scope
  holds hnames f hf i hi c hc := hg (h.holds hnames f hf i hi c hc)
  last := h.last
  pending := h.pending

/-- A caller may catch the error, or a number has reached the end of its word. -/
def Fault.Excused (g : Registry) : Fault → Prop
  | .error _ => True
  | .overflow => g.Full
  | .noScope _ | .sealedFlags _ => False

namespace Session

variable {p : Terms} {s t u : Session} {i : Instr}

/-- One stroke of work. -/
inductive Stroke (p : Terms) (s : Session) : Session → Prop
  | serves {g : Registry} : s.registry.Service p.names g → Stroke p s { s with registry := g }
  | arranges {b : Builder} : b.scope = s.builder.scope → b.instrs = s.builder.instrs →
    b.line.last = s.builder.line.last →
    (b.line.pending = s.builder.line.pending ∨ b.line.pending = none) →
    (p.names → s.builder.Holds s.registry.Knows → b.Holds s.registry.Knows) →
      Stroke p s { s with builder := b }
  | notes {line : Int32} : (p.limits → line ≠ Int32.maxValue) →
    Stroke p s { s with builder := { s.builder with line := s.builder.line.note line } }
  | appends {i : Instr} :
    Stroke p s (s.announce s.builder.instrs.size i (s.builder.append i))
  | prepends {i : Instr} : Stroke p s (s.announce 0 i (s.builder.prepend i))

abbrev Strokes (p : Terms) (s t : Session) : Prop := Relation.ReflTransGen (Stroke p) s t

/-- What the work of a builder relies on. -/
structure Sound (p : Terms) (s : Session) : Prop where
  formed : p.names → s.registry.Formed
  fit : s.builder.Fit p s.registry
  outer {b : Builder} : b ∈ s.outer → s.registry.Has b.scope

theorem Sound.tempOwner (h : s.Sound p) : s.registry.Has s.tempScope := by
  rcases List.mem_cons.mp (Workshop.tempOwner_mem s.builder s.outer) with heq | hmem
  · rw [tempScope, heq]
    exact h.fit.scope
  · exact h.outer hmem

namespace Stroke

theorem scope (h : s.Stroke p t) : t.builder.scope = s.builder.scope := by
  cases h with
  | arranges hscope => exact hscope
  | serves | notes | appends | prepends => rfl

theorem outer (h : s.Stroke p t) : t.outer = s.outer := by
  cases h <;> rfl

theorem serves_registry (h : s.Stroke p t) : s.registry.Serves t.registry := by
  cases h with
  | serves h => exact h.serves
  | arranges | notes => exact .refl _
  | appends | prepends => exact Registry.serves_recorded _ _

theorem advances (h : s.Stroke p t) : s.registry.Advances p.names t.registry := by
  cases h with
  | serves h => exact .single (.changes (.serves h))
  | arranges | notes => exact .refl
  | appends | prepends => exact .single (.changes .record)

theorem sound (hs : s.Sound p) (h : s.Stroke p t) : t.Sound p := by
  have hformed : p.names → t.registry.Formed :=
    fun hnames => (hs.formed hnames).advances hnames h.advances
  have hfit : s.builder.Fit p t.registry := hs.fit.later fun hid => h.serves_registry.has hid
  have houter : ∀ {b : Builder}, b ∈ t.outer → t.registry.Has b.scope := by
    intro b hb
    rw [h.outer] at hb
    exact h.serves_registry.has (hs.outer hb)
  cases h with
  | serves => exact ⟨hformed, hfit, houter⟩
  | arranges hscope _ hlast hpending hkeeps =>
    refine ⟨hformed, ⟨?_, fun hnames => hkeeps hnames (hfit.holds hnames), ?_, ?_⟩, houter⟩
    · rw [hscope]
      exact hfit.scope
    · rw [hlast]
      exact hfit.last
    · intro line hlimits hline
      rcases hpending with heq | hnone
      · exact hfit.pending hlimits (heq ▸ hline)
      · rw [hnone] at hline
        cases hline
  | @notes line hline =>
    refine ⟨hformed, ⟨hfit.scope, hfit.holds, fun hlimits => ?_, fun {l} hlimits hl => ?_⟩, houter⟩
    · unfold LineLatch.note
      split
      · exact hfit.last hlimits
      · exact hline hlimits
    · unfold LineLatch.note at hl
      split at hl
      · exact hfit.pending hlimits hl
      · rw [← Option.some.inj hl]
        exact hline hlimits
  | appends | prepends =>
    exact ⟨hformed, ⟨hfit.scope, hfit.holds, hfit.last, hfit.pending⟩, houter⟩

end Stroke

namespace Strokes

theorem scope (h : s.Strokes p t) : t.builder.scope = s.builder.scope := by
  induction h with
  | refl => rfl
  | tail _ hstep ih => exact hstep.scope.trans ih

theorem outer (h : s.Strokes p t) : t.outer = s.outer := by
  induction h with
  | refl => rfl
  | tail _ hstep ih => exact hstep.outer.trans ih

theorem serves (h : s.Strokes p t) : s.registry.Serves t.registry := by
  induction h with
  | refl => exact .refl _
  | tail _ hstep ih => exact ih.trans hstep.serves_registry

theorem advances (h : s.Strokes p t) : s.registry.Advances p.names t.registry := by
  induction h with
  | refl => exact .refl
  | tail _ hstep ih => exact ih.trans hstep.advances

theorem sound (hs : s.Sound p) (h : s.Strokes p t) : t.Sound p := by
  induction h with
  | refl => exact hs
  | tail _ hstep ih => exact hstep.sound ih

end Strokes

end Session

end ScopeIR
