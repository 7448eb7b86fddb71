import ScopeIR.CommandLine
import ScopeIR.Diagnostic
import ScopeIR.File.Archive

/-! The command that lists the scopes of a file. -/

namespace ScopeIR

/-- What trying to read a file gave. -/
inductive Reading where
  | bytes (bytes : List UInt8)
  /-- The file could not be opened, for this reason. -/
  | notOpened (reason : String)
  /-- The open file could not be read, for this reason. -/
  | notRead (reason : String)

namespace Reading

def missing : Reading := .notOpened "No such file or directory (os error 2)"

def nameTooLong : Reading := .notOpened "File name too long (os error 36)"

def throughFile : Reading := .notOpened "Not a directory (os error 20)"

/-- A directory can be opened, but not read. -/
def directory : Reading := .notRead "Is a directory (os error 21)"

end Reading

/-- What a command writes, and its exit code. -/
structure Outcome where
  code : UInt32
  stdout : String
  stderr : String
  deriving DecidableEq

namespace Inspect

def padLeft (width : Nat) (s : String) : String :=
  String.ofList (List.replicate (width - s.length) ' ') ++ s

def instrLine (index : Nat) (i : Instr) : String :=
  s!"  {padLeft 4 (toString index)}  {i.text}\n"

/-- Lists a scope: its header, its flags and, if asked for, its instructions. -/
def listing (s : Scope) (flagsOnly coloured : Bool) : String :=
  let unbuilt := Style.dimmed.apply coloured "(not built)"
  let body :=
    if flagsOnly then ""
    else match s.instrs with
      | some instrs => String.join (instrs.mapIdx instrLine)
      | none => s!"  {unbuilt}\n"
  s!"{Style.bold.apply coloured s.text}\n  flags: {s.flags.text}\n{body}"

def load (reading : Reading) : Except Diagnostic Archive :=
  match reading with
  | .bytes bytes => match Archive.read bytes with
    | .ok (a, _) => .ok a
    | .error e => .error e.diagnostic
  | .notOpened reason => .error ⟨.system, reason, none⟩
  | .notRead reason => .error ⟨.persist, "io error: " ++ reason, none⟩

/-- Runs the command on what its input file gave. -/
def run (o : Options) (reading : Reading) (coloured : Bool) : Outcome :=
  let log (records : List LogRecord) : String := LogRecord.render records o.logFilter coloured
  let opening : LogRecord := .own .debug "persist" s!"reading IR from {o.input}"
  match load reading with
  | .ok a =>
    let loaded : LogRecord := .own .info "cli::inspect" s!"{o.input}: {a.scopes.length} scopes"
    ⟨0, String.join (a.scopes.map (listing · o.flagsOnly coloured)), log [opening, loaded]⟩
  | .error d => ⟨1, "", log [opening] ++ d.report coloured⟩

end Inspect

end ScopeIR
