import ScopeIR.Flags.Coverage
import ScopeIR.Instr.Text
import ScopeIR.Journal
import ScopeIR.Style

/-! Log records: what is logged, at which level, and how it is written. -/

namespace ScopeIR

inductive LogLevel where
  | error
  | warn
  | info
  | debug
  | trace
  deriving DecidableEq

namespace LogLevel

def all : List LogLevel := [.error, .warn, .info, .debug, .trace]

def word : LogLevel → String
  | .error => "error"
  | .warn => "warn"
  | .info => "info"
  | .debug => "debug"
  | .trace => "trace"

def style : LogLevel → Style
  | .error => .red
  | .warn => .yellow
  | .info => .blue
  | .debug => .magenta
  | .trace => .green

def ofWord? (s : String) : Option LogLevel := all.find? (·.word = s)

/-- The same in letters of either case. -/
def ofText? (s : String) : Option LogLevel := ofWord? (Text.foldCase s)

end LogLevel

/-- The least severe level that is let through; `none` lets nothing through. -/
abbrev LogFilter := Option LogLevel

namespace LogFilter

def allows (f : LogFilter) (l : LogLevel) : Bool :=
  f.any fun limit => l.ctorIdx ≤ limit.ctorIdx

/-- Lets through what both let through. -/
def min (f g : LogFilter) : LogFilter := do
  let f ← f
  let g ← g
  return if f.ctorIdx ≤ g.ctorIdx then f else g

/-- The word of a level, or `off`. -/
def ofWord? (s : String) : Option LogFilter :=
  if s = "off" then some none else (LogLevel.ofWord? s).map some

/-- The same in letters of either case. -/
def ofText? (s : String) : Option LogFilter := ofWord? (Text.foldCase s)

end LogFilter

structure LogRecord where
  level : LogLevel
  /-- Path of what logs, its parts between double colons. -/
  target : String
  message : String
  deriving DecidableEq

/-- Root of the targets of this program's own records. -/
def programName : String := "garnet"

namespace LogRecord

/-- A record of this program from the part of it at `path`. -/
def own (level : LogLevel) (path message : String) : LogRecord :=
  ⟨level, programName ++ "::" ++ path, message⟩

/-- The path below the program's name, if the record comes from there. -/
def path? (r : LogRecord) : Option String :=
  let root := (programName ++ "::").toList
  if root.isPrefixOf r.target.toList then some (String.ofList (r.target.toList.drop root.length))
  else none

/-- Whether the program's name is the whole target, or its first part. Colons of a run are paired
from its end, so that a run of odd length ends no part. -/
def isOwn (r : LogRecord) : Bool :=
  r.target = programName ||
    programName.toList.isPrefixOf r.target.toList &&
      let rest := r.target.toList.drop programName.length
      let colons := (rest.takeWhile (· = ':')).length
      0 < colons && colons % 2 = 0

/-- Records of other programs pass only if they are warnings or errors. -/
def passes (r : LogRecord) (f : LogFilter) : Bool :=
  if r.isOwn then f.allows r.level else (f.min (some .warn)).allows r.level

/-- The line written for a record. -/
def line (r : LogRecord) (coloured : Bool) : String :=
  let word := r.level.style.apply coloured (r.level.word ++ ":")
  match r.path? with
  | some path => s!"{word} [{Style.dimmed.apply coloured path}] {r.message}\n"
  | none => s!"{word} {r.message}\n"

/-- The record without style, for comparison. -/
def plain (r : LogRecord) : String :=
  s!"{String.ofList (r.level.word.toList.map Char.toUpper)} {r.target} {r.message}"

/-- What is written for records in order. -/
def render (records : List LogRecord) (f : LogFilter) (coloured : Bool) : String :=
  String.join ((records.filter (·.passes f)).map (·.line coloured))

end LogRecord

/-- How an event is logged. -/
def Event.logRecord : Event → LogRecord
  | .scopeCreated s => .own .debug "scope::manager" s!"new scope {s.text}"
  | .builderOpened scope => .own .debug "builder" s!"building scope {scope.text}"
  | .instrAdded scope index i => .own .trace "builder" s!"{scope.text} [{index}] {i.text}"
  | .ensureCopied start size scope =>
    .own .debug "builder::ensure"
      s!"cloning ensure body {start.text} ({size} instructions) into {scope.text}"
  | .superForwarded scope depth positional keyword =>
    .own .debug "builder::zsuper"
      s!"zsuper in {scope.text} at depth {depth}: {positional} positional, {keyword} keyword"
  | .scopeFinished scope size flags =>
    .own .debug "builder"
      s!"finished scope {scope.text} with {size} instructions, flags {flags.text}"

def Journal.logRecords (j : Journal) : List LogRecord := j.toList.map Event.logRecord

/-- Warnings about words in a list of coverage modes. -/
def Coverage.warnings (list : String) : List LogRecord :=
  (strangers list).map fun s => .own .warn "config" s!"unknown coverage mode `{s}`"

end ScopeIR
