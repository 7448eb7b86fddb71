import ScopeIR.Log
import ScopeIR.Operand.Text
import ScopeIR.Text.Likeness

/-! The command line: a log level anywhere, and the command `inspect` with a file. -/

namespace ScopeIR

/-- What is asked for. -/
structure Options where
  logFilter : LogFilter
  input : String
  flagsOnly : Bool
  deriving DecidableEq

inductive UsageError where
  | missingArgumentOrSubcommand
  | missingRequiredArgument
  | unknownArgument
  | unrecognizedSubcommand
  /-- A word that may be a misspelt command. -/
  | invalidSubcommand
  | invalidValue
  | unexpectedMultipleUsage
  | helpDisplayed
  | versionDisplayed
  deriving DecidableEq

namespace CommandLine

/-- How often an option with a value was given, and the values. -/
structure Uses where
  count : Nat := 0
  values : List String := []

/-- What was met in front of the command, or behind it. -/
structure Met where
  level : Uses := {}
  flagsOnly : Nat := 0
  input : Option String := none

/-- An argument that cannot be the value of the option before it. -/
def isNew (arg : String) : Bool := arg.toList.head? = some '-' && arg ≠ "-"

/-- Name and value of an option whose name is written in full. -/
def longOption (arg : String) : String × Option String :=
  let cs := arg.toList
  let isName (c : Char) : Bool := c ≠ '='
  let name := String.ofList ((cs.takeWhile isName).dropWhile (· = '-'))
  match cs.dropWhile isName with
  | [] => (name, none)
  | marks => (name, some (String.ofList (marks.dropWhile (· = '='))))

/-- Reads an argument that starts with a dash. The flag says that its value follows. -/
def readOption (met : Met) (arg : String) (inCommand : Bool) : Except UsageError (Met × Bool) :=
  if arg.toList.take 2 = ['-', '-'] then
    match longOption arg with
    | ("log-level", some value) =>
      .ok ({ met with level := ⟨met.level.count + 1, met.level.values ++ [value]⟩ }, false)
    | ("log-level", none) =>
      .ok ({ met with level := { met.level with count := met.level.count + 1 } }, true)
    | ("help", _) => .error .helpDisplayed
    | ("version", _) => .error .versionDisplayed
    | ("flags-only", _) =>
      if inCommand then .ok ({ met with flagsOnly := met.flagsOnly + 1 }, false)
      else .error .unknownArgument
    | _ => .error .unknownArgument
  else match arg.toList[1]? with
    | some 'h' => .error .helpDisplayed
    | some 'V' => .error .versionDisplayed
    | _ => .error .unknownArgument

def addLevel (met : Met) (value : String) : Met :=
  { met with level := { met.level with values := met.level.values ++ [value] } }

/-- Further arguments are the input, which is one. -/
def readInput (met : Met) (arg : String) : Except UsageError Met :=
  if met.input.isSome then .error .unknownArgument else .ok { met with input := some arg }

/-- Reads what stands behind the command. `awaitsValue` is set after an option that lacks its
value. -/
def readCommand (met : Met) (awaitsValue : Bool) : List String → Except UsageError Met
  | [] => .ok met
  | arg :: rest =>
    if awaitsValue && !isNew arg then readCommand (addLevel met arg) false rest
    else if arg = "--" then rest.foldlM readInput met
    else if isNew arg then do
      let (met, awaitsValue) ← readOption met arg true
      readCommand met awaitsValue rest
    else do readCommand (← readInput met arg) false rest

/-- The fault of a word that stands where a command is due. -/
def strayWord (word : String) : UsageError :=
  if Text.resembles word "inspect" ∨ Text.resembles word "help" then .invalidSubcommand
  else .unknownArgument

/-- Reads what stands in front of the command and returns what follows it. -/
def readFront (met : Met) (awaitsValue : Bool) :
    List String → Except UsageError (Met × List String)
  | [] => .error .missingArgumentOrSubcommand
  | arg :: rest =>
    if awaitsValue && !isNew arg then readFront (addLevel met arg) false rest
    else if arg = "inspect" then .ok (met, rest)
    else if arg = "help" then
      if rest = [] ∨ rest = ["inspect"] ∨ rest = ["help"] then .error .helpDisplayed
      else .error .unrecognizedSubcommand
    else if arg = "--" then
      .error ((rest.head?.map strayWord).getD .missingArgumentOrSubcommand)
    else if isNew arg then do
      let (met, awaitsValue) ← readOption met arg false
      readFront met awaitsValue rest
    else .error (strayWord arg)

/-- The filter that an option asks for; `unused` stands for a value that was not given. -/
def filterOf (uses : Uses) (unused : String) : Except UsageError LogFilter := do
  let values := if uses.values.isEmpty then [unused] else uses.values
  let filters ← values.mapM fun v => match LogFilter.ofWord? v with
    | some f => .ok f
    | none => .error .invalidValue
  if 1 < uses.count then throw .unexpectedMultipleUsage
  return filters.headD none

/-- Reads the arguments. A level behind the command wins over one in front of it, and either over
the environment's. -/
def parse (args : List String) (envLevel : Option String) : Except UsageError Options := do
  let unused := envLevel.getD "info"
  let (front, rest) ← readFront {} false args
  let command ← readCommand {} false rest
  let some input := command.input | throw .missingRequiredArgument
  let inner ← filterOf command.level unused
  if 1 < command.flagsOnly then throw .unexpectedMultipleUsage
  let outer ← filterOf front.level unused
  return {
    logFilter := if command.level.count = 0 then outer else inner
    input
    flagsOnly := command.flagsOnly = 1 }

end CommandLine

/-- The words that name a filter in the listing of options. -/
def LogFilter.name : LogFilter → String
  | none => "Off"
  | some .error => "Error"
  | some .warn => "Warn"
  | some .info => "Info"
  | some .debug => "Debug"
  | some .trace => "Trace"

/-- All options on one line. -/
def Options.text (o : Options) : String :=
  "Cli \x7b log_level: " ++ o.logFilter.name ++ ", cmd: Inspect(InspectOptions \x7b input: " ++
    Text.quoted o.input.toList ++ ", flags_only: " ++ boolText o.flagsOnly ++ " \x7d) \x7d"

/-- The name of the kind of a usage error. -/
def UsageError.name : UsageError → String
  | .missingArgumentOrSubcommand => "MissingArgumentOrSubcommand"
  | .missingRequiredArgument => "MissingRequiredArgument"
  | .unknownArgument => "UnknownArgument"
  | .unrecognizedSubcommand => "UnrecognizedSubcommand"
  | .invalidSubcommand => "InvalidSubcommand"
  | .invalidValue => "InvalidValue"
  | .unexpectedMultipleUsage => "UnexpectedMultipleUsage"
  | .helpDisplayed => "HelpDisplayed"
  | .versionDisplayed => "VersionDisplayed"

end ScopeIR
