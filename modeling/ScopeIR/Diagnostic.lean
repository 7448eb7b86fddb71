import ScopeIR.Fault
import ScopeIR.File.Codec
import ScopeIR.Style

/-! Errors as their readers see them. -/

namespace ScopeIR

inductive ErrorKind where
  | build
  | source
  | flags
  | persist
  | logger
  | system
  deriving DecidableEq

def ErrorKind.text : ErrorKind → String
  | .build => "build error"
  | .source => "syntax error"
  | .flags => "flags error"
  | .persist => "persist error"
  | .logger => "logger error"
  | .system => "i/o error"

structure Diagnostic where
  kind : ErrorKind
  message : String
  place : Option Location := none
  deriving DecidableEq

namespace Diagnostic

def text (d : Diagnostic) : String := s!"{d.kind.text}: {d.message}"

/-- The report on a terminal: the error, its place if it has one, and an empty line. -/
def report (d : Diagnostic) (coloured : Bool) : String :=
  let arrow := Style.bold.apply coloured "-->"
  let place := match d.place with
    | some p => s!" {arrow} {p.text}\n"
    | none => ""
  let kind := Style.boldRed.apply coloured (d.kind.text ++ ":")
  s!"{kind} {Style.bold.apply coloured d.message}\n{place}\n"

/-- There is one logger; installing a second one fails. -/
def secondLogger : Diagnostic where
  kind := .logger
  message := "attempted to set a logger after the logging system was already initialized"

end Diagnostic

def BuildError.kind : BuildError → ErrorKind
  | .noResult _ | .noBranch .. | .noEnsureBody | .noEnsure | .insideEnsureBody _ => .build
  | .alreadyFinished _ => .flags
  | .invalidExit .. | .exitFromEval .. => .source

def BuildError.message : BuildError → String
  | .noResult i => s!"`{i.text}` has no result variable"
  | .noBranch value test => s!"no branch fold for `{value.text}` against `{test.text}`"
  | .noEnsureBody => "ensure body stack is empty"
  | .noEnsure => "ensure stack is empty"
  | .insideEnsureBody scope => s!"scope {scope.text} finished inside an ensure body"
  | .alreadyFinished scope => s!"flags of scope {scope.text} were already computed"
  | .invalidExit exit _ => s!"Invalid {exit.word}"
  | .exitFromEval exit _ => s!"Can't escape from eval with {exit.word}"

def BuildError.place : BuildError → Option Location
  | .invalidExit _ place | .exitFromEval _ place => some place
  | _ => none

def BuildError.diagnostic (e : BuildError) : Diagnostic := ⟨e.kind, e.message, e.place⟩

/-- What an attempt to change final flags is reported as. -/
def sealedMessage (scope : ScopeId) : String :=
  s!"flags of scope {scope.text} mutated after being computed"

def File.ReadError.message : File.ReadError → String
  | .outOfBytes => "io error: failed to fill whole buffer"
  | .badBool b => s!"invalid u8 while decoding bool, expected 0 or 1, found {b}"
  | .badOption b => s!"tag for enum is not valid, found {b}"
  | .badChoice n count =>
    s!"invalid value: integer `{n}`, expected variant index 0 <= i < {count}"
  | .badText cause => "string is not valid utf8: " ++ cause.message
  | .unsupportedVersion v => s!"unsupported IR file version {v} (expected 1)"

def File.ReadError.diagnostic (e : File.ReadError) : Diagnostic := ⟨.persist, e.message, none⟩

end ScopeIR
