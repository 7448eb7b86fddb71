import ScopeIR.Flags.Basic
import ScopeIR.Text.Blank

/-! Coverage modes and the comma separated lists that name them. -/

namespace ScopeIR

inductive CoverageMode where
  | lines
  | branches
  | methods
  | eval
  | oneshotLines
  deriving DecidableEq

namespace CoverageMode

def name : CoverageMode → String
  | .lines => "LINES"
  | .branches => "BRANCHES"
  | .methods => "METHODS"
  | .eval => "EVAL"
  | .oneshotLines => "ONESHOT_LINES"

def all : List CoverageMode := [.lines, .branches, .methods, .eval, .oneshotLines]

instance : Flag CoverageMode where
  width := 8
  members := all
  position := CoverageMode.ctorIdx
  name := name

/-- The word for a mode in a list. -/
def word : CoverageMode → String
  | .lines => "lines"
  | .branches => "branches"
  | .methods => "methods"
  | .eval => "eval"
  | .oneshotLines => "oneshot_lines"

/-- Blanks around a word and its case do not count. -/
def ofWord? (s : String) : Option CoverageMode :=
  all.find? fun m => m.word = Text.foldCase (Text.trim s)

end CoverageMode

abbrev Coverage := FlagSet CoverageMode

namespace Coverage

/-- The entries of a comma separated list that are not blank. -/
def entries (list : String) : List String :=
  (list.splitOn ",").filter fun s => Text.trim s != ""

def ofWords (list : String) : Coverage :=
  FlagSet.ofList ((entries list).filterMap CoverageMode.ofWord?)

/-- The entries that name no mode, without the blanks around them. -/
def strangers (list : String) : List String :=
  ((entries list).filter fun s => (CoverageMode.ofWord? s).isNone).map Text.trim

end Coverage

end ScopeIR
