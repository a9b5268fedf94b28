import Backend386.Pipeline

/-!
# The command line

Options are written `--name value` or `--name=value`, and those with a letter also `-n value`,
`-nvalue` or `-n=value`. There are no other arguments.

* `CommandLine.Flag` — the options there are;
* `CommandLine.scan` — splits the arguments into options and their values;
* `CommandLine.parse` — reads the arguments.

Arguments that cannot be read are refused before anything else is checked, a missing input before a
missing value, and a missing value at the end before the values of other options.
-/

namespace Backend386.CommandLine

/-- Why the arguments were refused. -/
inductive ArgumentError where
  | missingRequired
  | unknownArgument
  | invalidValue
  | emptyValue
  | repeated
  /-- the help text is asked for -/
  | help
  /-- the version is asked for -/
  | version
deriving DecidableEq, Inhabited, Repr

/-- The options. -/
inductive Flag where
  | input
  | output
  | format
  | emit
  | profile
  | verboseAsm
  | logLevel
deriving DecidableEq, Inhabited, Repr

namespace Flag

/-- All options. -/
def all : List Flag :=
  [input, output, format, emit, profile, verboseAsm, logLevel]

/-- The name after two dashes. -/
def name : Flag → String
  | input => "input"
  | output => "output"
  | format => "format"
  | emit => "emit"
  | profile => "profile"
  | verboseAsm => "verbose-asm"
  | logLevel => "log-level"

/-- The letter after one dash. -/
def letter? : Flag → Option Char
  | input => some 'i'
  | output => some 'o'
  | format => some 'f'
  | profile => some 'p'
  | emit | verboseAsm | logLevel => none

/-- Whether the option has a value. -/
def takesValue : Flag → Bool
  | verboseAsm => false
  | _ => true

/-- The values that an option may have, if not every value will do. -/
def allowed? : Flag → Option (List String)
  | format => some ["json", "yaml"]
  | emit => some ["asm", "mir", "types"]
  | profile => some ["ilp32", "lp64", "ilp64", "llp64"]
  | logLevel => some ["off", "error", "warn", "info", "debug", "trace"]
  | input | output | verboseAsm => none

/-- The value of an option that is not given one. -/
def default? : Flag → Option String
  | format => some "json"
  | emit => some "asm"
  | profile => some "ilp32"
  | input | output | verboseAsm | logLevel => none

end Flag

/-- One occurrence of an option, with its value. -/
structure Given where
  flag : Flag
  value : Option String := none
deriving DecidableEq, Inhabited

/-! ## Splitting the arguments -/

/-- Whether an argument can be the value of the option in front of it. -/
def isValue (arg : String) : Bool :=
  arg.toList.head? ≠ some '-' || arg = "-"

/-- A value without the equals signs in front of it. -/
def valueText (cs : List Char) : String :=
  String.ofList (cs.dropWhile (· = '='))

/-- An argument of two or more dashes. A value given to an option without one is ignored. -/
def longArgument (arg : List Char) : Except ArgumentError Given :=
  let body := arg.dropWhile (· = '-')
  let name := String.ofList (body.takeWhile (· ≠ '='))
  let value := match body.dropWhile (· ≠ '=') with
    | [] => none
    | _ :: text => some (valueText text)
  match Flag.all.find? (·.name = name) with
  -- a value behind a flag that takes none is dropped
  | some flag => .ok { flag, value := if flag.takesValue then value else none }
  | none =>
    -- these two have no flags of their own, and they end the reading at once
    if name = "help" then .error .help
    else if name = "version" then .error .version
    else .error .unknownArgument

/-- An argument of one dash: a letter, and the value if anything follows it. -/
def shortArgument (letter : Char) (rest : List Char) : Except ArgumentError Given :=
  match Flag.all.find? (·.letter? = some letter) with
  | some flag => .ok { flag, value := if rest.isEmpty then none else some (valueText rest) }
  | none =>
    if letter = 'h' then .error .help
    else if letter = 'V' then .error .version
    else .error .unknownArgument

/-- An argument that begins an option. -/
def argument (arg : String) : Except ArgumentError Given :=
  match arg.toList with
  | '-' :: '-' :: rest => longArgument ('-' :: '-' :: rest)
  | '-' :: letter :: rest => shortArgument letter rest
  | _ => .error .unknownArgument

/-- Splits the arguments into options and their values. Nothing may follow two dashes alone. -/
def scan : List String → Except ArgumentError (List Given)
  | [] => .ok []
  | arg :: rest =>
    if arg = "--" then
      -- nothing may follow the two dashes, as there are no positional arguments
      if rest.isEmpty then .ok [] else .error .unknownArgument
    else do
      let given ← argument arg
      match given.value, rest with
      | none, next :: rest =>
        -- a flag without a value of its own takes the next argument
        if given.flag.takesValue && isValue next then
          return { given with value := some next } :: (← scan rest)
        return given :: (← scan (next :: rest))
      | _, rest => return given :: (← scan rest)

/-! ## Checking the options -/

/-- The values that an option was given, or else its default. -/
def valuesOf (given : List Given) (flag : Flag) : List String :=
  match (given.filter (·.flag = flag)).filterMap (·.value) with
  | [] => flag.default?.toList
  | values => values

/-- How often an option was given. -/
def occurrences (given : List Given) (flag : Flag) : Nat :=
  given.countP (·.flag = flag)

/-- The option at the end, if it still waits for a value. -/
def waiting? (given : List Given) : Option Flag :=
  match given.getLast? with
  | some { flag, value := none } => if flag.takesValue then some flag else none
  | _ => none

/-- Checks the values of an option that was given, then how often it was. -/
def checkFlag (given : List Given) (flag : Flag) : Except ArgumentError Unit := do
  let values := valuesOf given flag
  if 0 < occurrences given flag then
    if flag.takesValue && values.isEmpty then
      throw .emptyValue
    if let some allowed := flag.allowed? then
      if values.any (· ∉ allowed) then
        throw .invalidValue
    if 1 < occurrences given flag then
      throw .repeated

/-- Checks the options as a whole. -/
def check (given : List Given) : Except ArgumentError Unit := do
  if occurrences given .input = 0 then
    throw .missingRequired
  if let some flag := waiting? given then
    if (valuesOf given flag).isEmpty then
      throw .emptyValue
  Flag.all.forM (checkFlag given)

/-! ## The settings -/

/-- How much is logged. -/
inductive LogLevel where
  | off
  | error
  | warn
  | info
  | debug
  | trace
deriving DecidableEq, Inhabited, Repr

namespace LogLevel

/-- The name of a level. -/
def name : LogLevel → String
  | off => "off"
  | error => "error"
  | warn => "warn"
  | info => "info"
  | debug => "debug"
  | trace => "trace"

/-- The level of a given name. -/
def ofName? (s : String) : Option LogLevel :=
  [off, error, warn, info, debug, trace].find? (·.name = s)

end LogLevel

/-- What the command line asks for. -/
structure Invocation where
  /-- the file that holds the unit -/
  input : String
  options : Options
  format : Format
  logLevel : Option LogLevel := none
  /-- the file that is written; without one the result is printed -/
  output : Option String := none
deriving Inhabited

/-- Reads the arguments, the name of the program left out. -/
def parse (args : List String) : Except ArgumentError Invocation := do
  let given ← scan args
  check given
  let value (flag : Flag) := (valuesOf given flag).head?
  let named {α : Type} (flag : Flag) (ofName? : String → Option α) : Except ArgumentError α :=
    match (value flag).bind ofName? with
    | some a => .ok a
    | none => .error .invalidValue
  let input ← named .input some
  return {
    input
    options := {
      emit := ← named .emit Emit.ofName?
      profile := ← named .profile WidthProfile.ofName?
      verbose := 0 < occurrences given .verboseAsm
      fileName := some input }
    format := ← named .format Format.ofName?
    -- a level that is not known is no error: nothing is logged
    logLevel := (value .logLevel).bind LogLevel.ofName?
    output := value .output }

end Backend386.CommandLine
