/-!
# Arguments

A command stands behind options that hold for every command, and has options and words of its own.
An option has a long name, and mostly a one-letter name; its value follows it as a further
argument, or stands in the same one. Options for all commands may also stand behind the command,
where they go before those in front of it.
-/

namespace SeriesStore.CommandLine

/-- The options. -/
inductive Flag
  | config
  | dataDir
  | format
  | retention
  | samples
  | output
  deriving DecidableEq

namespace Flag

/-- The long name of an option. -/
def long : Flag → String
  | config => "config"
  | dataDir => "data-dir"
  | format => "format"
  | retention => "retention"
  | samples => "samples"
  | output => "output"

/-- The one-letter name of an option. -/
def short? : Flag → Option Char
  | config => some 'c'
  | dataDir => some 'd'
  | format => some 'f'
  | retention => some 'r'
  | samples => none
  | output => some 'o'

/-- Whether an option has a value. -/
def hasValue : Flag → Bool
  | samples => false
  | _ => true

/-- Whether the value of an option names a file or directory, and so cannot be empty. -/
def isPath : Flag → Bool
  | config | dataDir | output => true
  | _ => false

/-- The options for all commands. -/
def shared : List Flag := [config, dataDir, format]

end Flag

/-- What is to be done. -/
inductive Command
  | tiers (retention : String)
  | inspect (dir : String) (samples : Bool)
  | plan
  | compact
  | config (output : Option String)
  deriving DecidableEq

/-- A command with the options that hold for every command. -/
structure Invocation where
  command : Command
  config : Option String
  dataDir : Option String
  format : String
  deriving DecidableEq

/-- Why arguments do not lead to a command. -/
inductive Stop
  | help
  | version
  /-- The arguments make no sense. -/
  | misuse
  deriving DecidableEq

/-- Options with their values, and words, as far as they are read. -/
structure Given where
  options : List (Flag × String) := []
  words : List String := []

namespace Given

/-- The value of an option. -/
def value? (g : Given) (flag : Flag) : Option String := g.options.lookup flag

/-- Adds an option, which may be given only once. -/
def add (g : Given) (flag : Flag) (value : String) : Except Stop Given :=
  if (g.value? flag).isSome || (flag.isPath && value.isEmpty) then .error .misuse
  else .ok { g with options := g.options ++ [(flag, value)] }

end Given

/-- The options, and the number of words, that may stand somewhere. -/
structure Expected where
  flags : List Flag
  words : Nat
  /-- Whether they stand in front of the command. -/
  isFront : Bool
  deriving DecidableEq

/-- What an argument is. -/
inductive Argument
  /-- An option, with the value that stands in the same argument. -/
  | option (flag : Flag) (value : Option String)
  | word (s : String)
  /-- Only words follow. -/
  | wordsFollow
  | stop (reason : Stop)

/-- Whether an argument cannot be the value of the option before it. -/
def isOptionLike (s : String) : Bool :=
  match s.toList with
  | '-' :: _ :: _ => true
  | _ => false

/-- Tells what an argument is. -/
def Argument.ofText (expected : Expected) (s : String) : Argument :=
  match s.toList with
  | ['-', '-'] => .wordsFollow
  | '-' :: '-' :: cs =>
    let name := String.ofList (cs.takeWhile (· != '='))
    let value := match cs.dropWhile (· != '=') with
      | _ :: v => some (String.ofList v)
      | [] => none
    match expected.flags.find? fun flag => flag.long == name with
    | some flag => .option flag value
    | none =>
      if value.isNone ∧ name = "help" then .stop .help
      else if value.isNone ∧ name = "version" ∧ expected.isFront then .stop .version
      else .stop .misuse
  | '-' :: c :: cs =>
    match expected.flags.find? fun flag => flag.short? == some c with
    | some flag =>
      .option flag (match cs with
        | [] => none
        | '=' :: v => some (String.ofList v)
        | v => some (String.ofList v))
    | none =>
      if c = 'h' then .stop .help
      else if c = 'V' ∧ expected.isFront then .stop .version
      else .stop .misuse
  | _ => .word s

/-- Reads arguments where some are expected. In front of the command the first word ends the
reading. Gives what is read, and the arguments that are left. -/
def read (expected : Expected) : Given → List String → Except Stop (Given × List String)
  | g, [] => .ok (g, [])
  | g, s :: rest =>
    match Argument.ofText expected s with
    | .stop reason => .error reason
    | .wordsFollow =>
      if expected.isFront ∨ expected.words < g.words.length + rest.length then .error .misuse
      else .ok ({ g with words := g.words ++ rest }, [])
    | .word w =>
      if expected.isFront then .ok (g, s :: rest)
      else if expected.words ≤ g.words.length then .error .misuse
      else read expected { g with words := g.words ++ [w] } rest
    | .option flag (some value) =>
      if flag.hasValue then do read expected (← g.add flag value) rest else .error .misuse
    | .option flag none =>
      if flag.hasValue then
        match rest with
        | [] => .error .misuse
        | value :: rest =>
          if isOptionLike value then .error .misuse
          else do read expected (← g.add flag value) rest
      else do read expected (← g.add flag "") rest

/-- What is expected behind the name of a command. -/
def expectedOf? : String → Option Expected
  | "tiers" => some ⟨.retention :: Flag.shared, 0, false⟩
  | "inspect" => some ⟨.samples :: Flag.shared, 1, false⟩
  | "plan" => some ⟨Flag.shared, 0, false⟩
  | "compact" => some ⟨Flag.shared, 0, false⟩
  | "config" => some ⟨.output :: Flag.shared, 0, false⟩
  | _ => none

/-- The command of a name, with what is given behind it. -/
def commandOf? (name : String) (g : Given) : Option Command :=
  match name with
  | "tiers" => some (.tiers ((g.value? .retention).getD "unbounded"))
  | "inspect" =>
    match g.words with
    | [dir] => if dir.isEmpty then none else some (.inspect dir (g.value? .samples).isSome)
    | _ => none
  | "plan" => some .plan
  | "compact" => some .compact
  | "config" => some (.config (g.value? .output))
  | _ => none

/-- Whether help can be given on some words: on nothing, or on a command. -/
def hasHelp : List String → Bool
  | [] => true
  | [name] => name == "help" || (expectedOf? name).isSome
  | _ => false

/-- The command that the arguments ask for. -/
def Invocation.ofArguments (args : List String) : Except Stop Invocation := do
  let (front, rest) ← read ⟨Flag.shared, 0, true⟩ {} args
  match rest with
  | [] => throw .misuse
  | name :: rest =>
    if name = "help" then throw (if hasHelp rest then .help else .misuse)
    match expectedOf? name with
    | none => throw .misuse
    | some expected => do
      let (own, _) ← read expected {} rest
      match commandOf? name own with
      | none => throw .misuse
      | some command =>
        let shared (flag : Flag) := own.value? flag <|> front.value? flag
        return ⟨command, shared .config, shared .dataDir, (shared .format).getD "table"⟩

end SeriesStore.CommandLine
