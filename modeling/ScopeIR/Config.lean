import ScopeIR.Flags.Coverage

/-! Settings of a compilation. -/

namespace ScopeIR

structure Config where
  /-- Follow every written line number by a trace instruction. -/
  fullTrace : Bool := false
  /-- The coverage that builders of root scopes start with. -/
  coverage : Coverage := ∅
  deriving DecidableEq

namespace Config

/-- Words that switch a setting on. Blanks around them and case do not count. -/
def isYes (s : String) : Bool := Text.foldCase (Text.trim s) ∈ ["1", "true", "yes", "on"]

/-- The settings that two environment variables describe; an unset one leaves its default. -/
def ofEnv (fullTrace coverage : Option String) : Config where
  fullTrace := fullTrace.any isYes
  coverage := (coverage.map Coverage.ofWords).getD ∅

end Config

end ScopeIR
