import Rearrange.Text.Quoted
import Rearrange.Text.Similarity

namespace Rearrange.CommandLine

/-- The options there are. -/
inductive OptionName where
  | logLevel
  | json
  | indented
  | noIndented
  | focus
  | position
  | help
deriving DecidableEq, Repr

namespace OptionName

/-- How an option is written. -/
def text : OptionName → String
  | logLevel => "--log-level"
  | json => "--json"
  | indented => "--indented"
  | noIndented => "--no-indented"
  | focus => "--focus"
  | position => "--to"
  | help => "--help"

/-- Whether an option takes a value. -/
def takesValue : OptionName → Bool
  | logLevel | focus | position => true
  | json | indented | noIndented | help => false

end OptionName

/-- What is wrong with a command line. -/
inductive UsageError where
  | noSuchOption (given : List Char) (similar : List String)
  | needsValue (option : OptionName)
  | takesNoValue (option : OptionName)
  | missingCommand
  | noSuchCommand (given : List Char) (similar : List String)
  | badFocus (reason : String)
  | badPosition (given : List Char)
  | noSuchFile (path : List Char)
  | isDirectory (path : List Char)
  | missingArgument (name : String)
  | missingOption (option : OptionName)
  | extraArguments (given : List (List Char))
deriving DecidableEq

/-- The question that is added to the report of an unknown name, if there are names like it. -/
def suggestion (similar : List String) : String :=
  match similar with
  | [] => ""
  | [name] => s!" Did you mean {Text.quote name.toList}?"
  | names =>
    let quoted := ", ".intercalate (names.map (Text.quote ·.toList))
    s!" (Did you mean one of: {quoted}?)"

/-- The message shown for a command line that is wrong. -/
def UsageError.message : UsageError → String
  | noSuchOption given similar => s!"No such option {Text.quote given}." ++ suggestion similar
  | needsValue option => s!"Option '{option.text}' requires an argument."
  | takesNoValue option => s!"Option '{option.text}' does not take a value."
  | missingCommand => "Missing command."
  | noSuchCommand given similar => s!"No such command {Text.quote given}." ++ suggestion similar
  | badFocus reason => s!"Invalid value for '--focus': {reason}"
  | badPosition given =>
    s!"Invalid value for '--to': {Text.quote given} is not a valid integer."
  | noSuchFile path => s!"Invalid value for 'PATH': File {Text.quote path} does not exist."
  | isDirectory path => s!"Invalid value for 'PATH': File {Text.quote path} is a directory."
  | missingArgument name => s!"Missing argument '{name}'."
  | missingOption option => s!"Missing option '{option.text}'."
  | extraArguments given =>
    let noun := if given.length = 1 then "argument" else "arguments"
    let words := String.ofList ([' '].intercalate given)
    s!"Got unexpected extra {noun} ({words})"

/-- Arguments after a scan: the options given, in their order and with their values, and what is
left. An option that takes no value has the empty one. -/
structure Scanned where
  given : List (OptionName × List Char) := []
  rest : List (List Char) := []

/-- An option as it was given, without the value attached to it by an equals sign, and that
value. -/
def splitValue (arg : List Char) : List Char × Option (List Char) :=
  match arg.dropWhile (· != '=') with
  | [] => (arg, none)
  | _ :: value => (arg.takeWhile (· != '='), some value)

example : splitValue "--to=1=2".toList = ("--to".toList, some "1=2".toList) := by decide +kernel

/-- Whether an argument is an option, if options have not ended. -/
def isOption : List Char → Bool
  | '-' :: _ :: _ => true
  | _ => false

/-- The report of an unknown option. A long one is reported without its value, of any other only
the first letter, which is like nothing. -/
def unknownOption (allowed : List OptionName) (arg : List Char) : UsageError :=
  match arg with
  | '-' :: '-' :: _ =>
    let name := (splitValue arg).1
    .noSuchOption name (Text.suggestions name (allowed.map (·.text)))
  | _ => .noSuchOption (arg.take 2) []

/-- Tells options and other arguments apart. Options end at two hyphens and, unless they may stand
anywhere, at the first argument that is none. -/
def scan (allowed : List OptionName) (anywhere : Bool) :
    List (List Char) → Except UsageError Scanned
  | [] => .ok {}
  | arg :: args =>
    if arg = ['-', '-'] then .ok { rest := args }
    else if isOption arg then
      let (name, attached) := splitValue arg
      match allowed.find? (·.text.toList = name) with
      | none => .error (unknownOption allowed arg)
      | some o =>
        let add (value : List Char) (s : Scanned) : Scanned :=
          { s with given := (o, value) :: s.given }
        match o.takesValue, attached with
        | false, none => (scan allowed anywhere args).map (add [])
        | false, some _ => .error (.takesNoValue o)
        | true, some value => (scan allowed anywhere args).map (add value)
        | true, none =>
          match args with
          | [] => .error (.needsValue o)
          | value :: args => (scan allowed anywhere args).map (add value)
    else if anywhere then
      (scan allowed anywhere args).map fun s => { s with rest := arg :: s.rest }
    else .ok { rest := arg :: args }

namespace Scanned

/-- The value of an option. Of an option given repeatedly the last value counts. -/
def value? (s : Scanned) (o : OptionName) : Option (List Char) :=
  s.given.reverse.lookup o

/-- Whether help is asked for. -/
def asksForHelp (s : Scanned) : Bool :=
  (s.value? .help).isSome

/-- The last of the given options that was found. -/
def last? (s : Scanned) (among : List OptionName) : Option OptionName :=
  (s.given.reverse.find? (·.1 ∈ among)).map (·.1)

/-- The only argument that a command takes. -/
def argument (s : Scanned) (name : String) : Except UsageError (List Char) :=
  match s.rest with
  | [] => .error (.missingArgument name)
  | arg :: _ => .ok arg

/-- Fails if there are more arguments than one. -/
def checkRest (s : Scanned) : Except UsageError Unit :=
  match s.rest.drop 1 with
  | [] => .ok ()
  | extra => .error (.extraArguments extra)

end Scanned

end Rearrange.CommandLine
