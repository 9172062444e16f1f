import Rearrange.CommandLine.Arguments
import Rearrange.CommandLine.FrontEnd

namespace Rearrange.CommandLine

namespace CommandName

/-- How a command is written. -/
def text : CommandName → String
  | parse => "parse"
  | candidates => "candidates"
  | move => "move"
  | check => "check"

/-- All commands. -/
def all : List CommandName := [parse, candidates, move, check]

/-- The command that is written in a given way. -/
def ofText? (given : List Char) : Option CommandName :=
  all.find? (·.text.toList = given)

/-- The options of a command. -/
def options : CommandName → List OptionName
  | parse => [.indented, .noIndented, .json, .help]
  | candidates => [.focus, .help]
  | move => [.focus, .position, .help]
  | check => [.help]

/-- What the argument of a command is called. -/
def argument : CommandName → String
  | parse | candidates | move => "TEXT"
  | check => "PATH"

end CommandName

/-- How an option and its value are written. -/
def OptionName.usage (o : OptionName) : String :=
  if o.takesValue then o.text ++ " VALUE" else o.text

/-- How a command, its options and its argument are written. -/
def CommandName.usage (c : CommandName) : String :=
  " ".intercalate (c.text :: c.options.map (fun o => "[" ++ o.usage ++ "]") ++ [c.argument])

/-- The help on a command. -/
def CommandName.help (c : CommandName) : List Char :=
  ("Usage: " ++ c.usage ++ "\n").toList

/-- The options before the command. -/
def commonOptions : List OptionName := [.logLevel, .help]

/-- The help on the program: the options before the command, and the commands. -/
def programHelp : List Char :=
  let options := commonOptions.map fun o => "[" ++ o.usage ++ "]"
  let usage := "Usage: " ++ " ".intercalate (options ++ ["COMMAND"])
  ("\n".intercalate (usage :: CommandName.all.map fun c => "  " ++ c.usage) ++ "\n").toList

/-- Finds the command of a command line. What stands in its place is looked at as an option once
more if it is none. -/
def Invocation.ofArguments (args : List (List Char)) : Except UsageError Invocation := do
  let s ← scan commonOptions false args
  if s.asksForHelp then return .help programHelp
  match s.rest with
  | [] => throw .missingCommand
  | name :: rest =>
    match CommandName.ofText? name with
    | some found => return .command ((s.value? .logLevel).getD []) found rest
    | none =>
      if (← scan commonOptions false s.rest).asksForHelp then return .help programHelp
      throw (.noSuchCommand name (Text.suggestions name (CommandName.all.map (·.text))))

/-- Reads a position. -/
def readPosition (given : List Char) : Except UsageError Int :=
  match Text.integer? given with
  | some n => .ok n
  | none => .error (.badPosition given)

/-- Looks for the file with a given name. -/
def checkPath (files : Files) (path : List Char) : Except (Failure UsageError) Unit :=
  if '\x00' ∈ path then .error (.fault .zeroInPath)
  else
    match files path with
    | .absent => .error (.usage (.noSuchFile path))
    | .directory => .error (.usage (.isDirectory path))
    | .file _ => .ok ()

namespace Scanned

variable (s : Scanned) (read : List Char → Except UsageError (List Int))

/-- Fails if the option is given with a value that cannot be read. -/
def checkOption (o : OptionName) : Except UsageError Unit :=
  match o, s.value? o with
  | .focus, some given => (read given).map fun _ => ()
  | .position, some given => (readPosition given).map fun _ => ()
  | _, _ => .ok ()

/-- Fails at the first option that is given with a value that cannot be read. -/
def checkGiven : Except UsageError Unit :=
  (s.given.map (·.1)).eraseDups.forM (s.checkOption read)

/-- The value of an option that must be given. -/
def required (o : OptionName) : Except UsageError (List Char) :=
  match s.value? o with
  | some given => .ok given
  | none => .error (.missingOption o)

/-- The request that a command makes with its options and its argument. -/
def request (files : Files) (command : CommandName) : Except (Failure UsageError) Request := do
  let text ← (s.argument command.argument).mapError .usage
  match command with
  | .parse =>
    let indented := (s.last? [.indented, .noIndented]).map (· == .indented)
    return .parse text (s.value? .json).isSome indented
  | .candidates =>
    let focus ← (s.required .focus >>= read).mapError .usage
    return .candidates text focus
  | .move =>
    let focus ← (s.required .focus >>= read).mapError .usage
    let position ← (s.required .position >>= readPosition).mapError .usage
    return .move text focus position
  | .check =>
    checkPath files text
    return .check text

end Scanned

/-- Reads the request of a command. Options given are looked at in the order in which they are first
given, then the argument of the command, then the options that are missing, and last whether there
is anything left. Nothing of this is looked at once help is asked for. -/
def Request.ofArguments (read : List Char → Except UsageError (List Int)) (files : Files)
    (command : CommandName) (args : List (List Char)) : Except (Failure UsageError) Request := do
  let s ← (scan command.options true args).mapError .usage
  if s.asksForHelp then return .help command.help
  (s.checkGiven read).mapError .usage
  let request ← s.request read files command
  s.checkRest.mapError .usage
  return request

/-- The front end that scans the arguments from left to right. -/
def FrontEnd.scanner : FrontEnd UsageError where
  invocation := Invocation.ofArguments
  request := Request.ofArguments
  badParameter := .badFocus
  status _ := 2

/-- The message of a failure, if it has one. -/
def Failure.message? : Failure UsageError → Option String
  | usage e => some e.message
  | fault f => f.message?

end Rearrange.CommandLine
