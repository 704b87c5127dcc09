/-!
# Command lines

The arguments are read from left to right, and the first fault ends the reading. A request for help
or for the version is answered where it stands.
-/
namespace CodeSurvey.Command

/-- The settings of a scan that can be given by name. -/
inductive Setting where
  | output
  | jobs
  | maxFileSize
  | maxLines
  | cache
  | noCache
  | workspaces
  | config
  | exclude
  | verbose
  | quiet
  deriving DecidableEq, Repr

namespace Setting

def name : Setting → String
  | .output => "output"
  | .jobs => "jobs"
  | .maxFileSize => "max-file-size"
  | .maxLines => "max-lines"
  | .cache => "cache"
  | .noCache => "no-cache"
  | .workspaces => "workspaces"
  | .config => "config"
  | .exclude => "exclude"
  | .verbose => "verbose"
  | .quiet => "quiet"

def all : List Setting :=
  [.output, .jobs, .maxFileSize, .maxLines, .cache, .noCache, .workspaces, .config, .exclude,
    .verbose, .quiet]

def ofName? (name : String) : Option Setting :=
  all.find? (·.name == name)

def ofLetter? : Char → Option Setting
  | 'o' => some .output
  | 'j' => some .jobs
  | _ => none

def takesValue : Setting → Bool
  | .noCache | .verbose | .quiet => false
  | _ => true

end Setting

structure Options where
  path : Option String
  output : Option String
  jobs : Option Nat
  maxFileSize : Option Nat
  maxLines : Option Nat
  cache : Option String
  noCache : Bool
  workspaces : Option String
  config : Option String
  exclude : List String
  verbose : Bool
  quiet : Bool
  deriving DecidableEq, Repr

def Options.none : Options where
  path := Option.none
  output := Option.none
  jobs := Option.none
  maxFileSize := Option.none
  maxLines := Option.none
  cache := Option.none
  noCache := false
  workspaces := Option.none
  config := Option.none
  exclude := []
  verbose := false
  quiet := false

inductive UsageError where
  | noCommand
  | unknownCommand (name : String)
  | unexpectedArgument (argument : String)
  | missingPath
  | missingValue (setting : Setting)
  | unexpectedValue (setting : Setting)
  | invalidValue (value : String)
  | repeated (setting : Setting)
  | conflict (first second : Setting)
  deriving DecidableEq, Repr

namespace UsageError

def message : UsageError → String
  | .noCommand => "a command is required"
  | .unknownCommand name => "unrecognized command '" ++ name ++ "'"
  | .unexpectedArgument argument => "unexpected argument '" ++ argument ++ "' found"
  | .missingPath => "the path of the tree is required"
  | .missingValue setting => "a value is required for '--" ++ setting.name ++ "'"
  | .unexpectedValue setting => "unexpected value for '--" ++ setting.name ++ "'"
  | .invalidValue value => "invalid value '" ++ value ++ "'"
  | .repeated setting => "the argument '--" ++ setting.name ++ "' cannot be used multiple times"
  | .conflict first second =>
    "the argument '--" ++ first.name ++ "' cannot be used with '--" ++ second.name ++ "'"

end UsageError

/-- Why the reading of arguments stops before their end. -/
inductive Stop where
  | help
  | version
  | wrong (error : UsageError)
  deriving DecidableEq, Repr

/-- A natural number that fits 64 bits, with or without a plus sign. -/
def number (value : String) : Except Stop Nat :=
  let cs := value.toList
  let digits := if cs.head? == some '+' then cs.tail else cs
  let n := digits.foldl (fun n c => n * 10 + (c.toNat - '0'.toNat)) 0
  if !digits.isEmpty && digits.all Char.isDigit && n < UInt64.size then .ok n
  else .error (.wrong (.invalidValue value))

/-- A path has at least one character. -/
def somePath (value : String) : Except Stop String :=
  if value = "" then .error (.wrong (.invalidValue value)) else .ok value

/-- The value of a setting that may be given once. -/
def once {α : Type} (setting : Setting) (old : Option α) (new : Except Stop α) :
    Except Stop (Option α) := do
  let value ← new
  if old.isSome then .error (.wrong (.repeated setting)) else .ok (some value)

def onceTrue (setting : Setting) (old : Bool) : Except Stop Bool :=
  if old then .error (.wrong (.repeated setting)) else .ok true

namespace Options

def setValue (o : Options) (setting : Setting) (value : String) : Except Stop Options := do
  match setting with
  | .output => return { o with output := ← once setting o.output (somePath value) }
  | .jobs => return { o with jobs := ← once setting o.jobs (number value) }
  | .maxFileSize => return { o with maxFileSize := ← once setting o.maxFileSize (number value) }
  | .maxLines => return { o with maxLines := ← once setting o.maxLines (number value) }
  | .cache => return { o with cache := ← once setting o.cache (somePath value) }
  | .workspaces => return { o with workspaces := ← once setting o.workspaces (somePath value) }
  | .config => return { o with config := ← once setting o.config (somePath value) }
  | .exclude => return { o with exclude := o.exclude ++ [value] }
  | .noCache | .verbose | .quiet => .error (.wrong (.unexpectedValue setting))

def setFlag (o : Options) (setting : Setting) : Except Stop Options := do
  match setting with
  | .noCache => return { o with noCache := ← onceTrue setting o.noCache }
  | .verbose => return { o with verbose := ← onceTrue setting o.verbose }
  | .quiet => return { o with quiet := ← onceTrue setting o.quiet }
  | _ => .error (.wrong (.missingValue setting))

def setPath (o : Options) (value : String) : Except Stop Options := do
  if o.path.isSome then .error (.wrong (.unexpectedArgument value))
  else return { o with path := some (← somePath value) }

end Options

/-- An argument that starts with a dash and is not a dash alone. -/
def isDashed (argument : String) : Bool :=
  match argument.toList with
  | '-' :: _ :: _ => true
  | _ => false

/-- What one argument says. -/
inductive Argument where
  | setting (setting : Setting) (value : Option String)
  /-- Two dashes: everything after them is a path. -/
  | divider
  | plain (value : String)
  deriving DecidableEq, Repr

/-- Reads `--name` or `--name=value`, from behind the dashes. -/
def longArgument (argument : String) (cs : List Char) : Except Stop Argument :=
  let name := String.ofList (cs.takeWhile (· != '='))
  let value := match cs.dropWhile (· != '=') with
    | [] => none
    | _ :: value => some (String.ofList value)
  if name = "help" && value.isNone then .error .help
  else
    match Setting.ofName? name with
    | some setting => .ok (.setting setting value)
    | none => .error (.wrong (.unexpectedArgument argument))

/-- Reads a letter and the value behind it, from behind the dash. -/
def shortArgument (argument : String) (letter : Char) (rest : List Char) : Except Stop Argument :=
  if letter == 'h' then .error .help
  else
    match Setting.ofLetter? letter with
    | some setting =>
      .ok (.setting setting (match rest with
        | [] => none
        | '=' :: value => some (String.ofList value)
        | value => some (String.ofList value)))
    | none => .error (.wrong (.unexpectedArgument argument))

def readArgument (argument : String) : Except Stop Argument :=
  match argument.toList with
  | ['-', '-'] => .ok .divider
  | '-' :: '-' :: cs => longArgument argument cs
  | '-' :: letter :: rest => shortArgument argument letter rest
  | _ => .ok (.plain argument)

/-- Reads the arguments of a scan. -/
def readScan (o : Options) : List String → Except Stop Options
  | [] => .ok o
  | argument :: rest => do
    match ← readArgument argument with
    | .divider => rest.foldlM Options.setPath o
    | .plain value => readScan (← o.setPath value) rest
    | .setting setting (some value) => readScan (← o.setValue setting value) rest
    | .setting setting none =>
      if setting.takesValue then
        match rest with
        | [] => .error (.wrong (.missingValue setting))
        | value :: rest =>
          if isDashed value then .error (.wrong (.missingValue setting))
          else readScan (← o.setValue setting value) rest
      else readScan (← o.setFlag setting) rest

/-- A path is required, and some settings exclude each other. -/
def checkScan (o : Options) : Except Stop (String × Options) :=
  match o.path with
  | none => .error (.wrong .missingPath)
  | some path =>
    if o.noCache && o.cache.isSome then .error (.wrong (.conflict .noCache .cache))
    else if o.quiet && o.verbose then .error (.wrong (.conflict .quiet .verbose))
    else .ok (path, o)

/-- Reads a whole command line: the path to scan and how. -/
def parse (arguments : List String) : Except Stop (String × Options) :=
  match arguments with
  | [] => .error (.wrong .noCommand)
  | "scan" :: rest => (readScan .none rest).bind checkScan
  | ["help"] | ["help", "help"] | ["help", "scan"] => .error .help
  | "help" :: name :: _ => .error (.wrong (.unknownCommand name))
  | argument :: _ =>
    match argument.toList with
    | '-' :: 'h' :: _ => .error .help
    | '-' :: 'V' :: _ => .error .version
    | _ =>
      if argument = "--help" then .error .help
      else if argument = "--version" then .error .version
      else if isDashed argument then .error (.wrong (.unexpectedArgument argument))
      else .error (.wrong (.unknownCommand argument))

end CodeSurvey.Command
