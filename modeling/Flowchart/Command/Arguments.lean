import Flowchart.Position.Basic

/-!
The arguments of the command line. Options may stand before or after the file, values may follow
an option as the next argument or after an equals sign, short options may be run together, and two
hyphens end the options. No option but the verbosity may be given twice.
-/
namespace Flowchart

/-- The files that symbols and connectors are read from. -/
structure IndexFiles where
  symbols : Option Text := none
  connectors : Option Text := none
deriving DecidableEq, Repr, Inhabited

inductive Command where
  | analyze (file function : Text) (indexes : IndexFiles) (tree pretty : Bool)
  | generate (file node : Text) (insertAt : Option Position) (pretty : Bool)
  | sync (file function node : Text) (insertAt : Option Position) (indexes : IndexFiles)
      (write pretty : Bool)
deriving DecidableEq, Repr, Inhabited

namespace Command

/-- Why there is no command to run: help was asked for, or the arguments do not fit. -/
inductive Usage where
  | help
  | wrong
deriving DecidableEq, Repr, Inhabited

/-- An option by its long name and its short one, if any. -/
structure OptionSpec where
  long : Text
  short : Option Char := none
  takesValue : Bool := true
deriving DecidableEq, Repr, Inhabited

/-- An argument that was understood. -/
inductive Piece where
  | flag (name : Text)
  | option (name value : Text)
  | plain (value : Text)
deriving DecidableEq, Repr, Inhabited

def verbosity : OptionSpec := { long := "verbose", short := some 'v', takesValue := false }

def helpOption : OptionSpec := { long := "help", short := some 'h', takesValue := false }

def versionOption : OptionSpec := { long := "version", short := some 'V', takesValue := false }

def globalOptions : List OptionSpec := [verbosity, helpOption, versionOption]

def functionOption : OptionSpec := { long := "function", short := some 'f' }

def nodeOption : OptionSpec := { long := "node", short := some 'n' }

def indexOptions : List OptionSpec := [{ long := "symbols" }, { long := "connectors" }]

def positionOptions : List OptionSpec := [{ long := "line" }, { long := "col" }]

def prettyOption : OptionSpec := { long := "pretty", takesValue := false }

def optionsOf? (name : Text) : Option (List OptionSpec) :=
  let common := [verbosity, helpOption, prettyOption]
  if name = "analyze" then
    some (functionOption :: { long := "tree", takesValue := false } :: indexOptions ++ common)
  else if name = "generate" then some (nodeOption :: positionOptions ++ common)
  else if name = "sync" then
    some (functionOption :: nodeOption :: { long := "write", takesValue := false } ::
      positionOptions ++ indexOptions ++ common)
  else none

/-- An argument that starts with a hyphen and does not end there. -/
def looksLikeOption : Text → Bool
  | '-' :: _ :: _ => true
  | _ => false

/-- A flag that was met. Asking for help or for the version ends everything. -/
def meet (spec : OptionSpec) : Except Usage Piece :=
  if spec = helpOption ∨ spec = versionOption then .error .help else .ok (.flag spec.long)

/-- The flags run together in an argument, and the last one's name and value if it takes a value.
The value is missing when nothing follows the letter. -/
def shortRun (specs : List OptionSpec) :
    Text → Except Usage (List Piece × Option (Text × Option Text))
  | [] => .ok ([], none)
  | c :: rest =>
    match specs.find? fun spec => spec.short = some c with
    | none => .error .wrong
    | some spec =>
      if spec.takesValue then
        let value := match rest with
          | [] => none
          | '=' :: value => some value
          | value => some value
        .ok ([], some (spec.long, value))
      else do
        let piece ← meet spec
        let (pieces, last) ← shortRun specs rest
        pure (piece :: pieces, last)

/-- The flags of one argument, and the name and value of an option that takes one. -/
def optionArgument (specs : List OptionSpec) (arg : Text) :
    Except Usage (List Piece × Option (Text × Option Text)) :=
  match arg with
  | '-' :: '-' :: long =>
    let (name, value) := match Text.cut '=' long with
      | some (name, value) => (name, some value)
      | none => (long, none)
    match specs.find? fun spec => spec.long = name with
    | none => .error .wrong
    | some spec =>
      if spec.takesValue then .ok ([], some (spec.long, value))
      else if value.isSome then .error .wrong
      else do
        let piece ← meet spec
        pure ([piece], none)
  | arg => shortRun specs arg.tail

/-- The arguments of a subcommand as far as they can be understood, and why reading them stopped
before the end, if it did. -/
def pieces (specs : List OptionSpec) : List Text → List Piece × Option Usage
  | [] => ([], none)
  | arg :: rest =>
    if arg = "--" then (rest.map .plain, none)
    else if looksLikeOption arg then
      match optionArgument specs arg with
      | .error usage => ([], some usage)
      | .ok (flags, none) =>
        let (more, stopped) := pieces specs rest
        (flags ++ more, stopped)
      | .ok (flags, some (name, some value)) =>
        let (more, stopped) := pieces specs rest
        (flags ++ .option name value :: more, stopped)
      | .ok (flags, some (name, none)) =>
        match rest with
        | [] => (flags, some .wrong)
        | value :: rest =>
          if looksLikeOption value then (flags, some .wrong)
          else
            let (more, stopped) := pieces specs rest
            (flags ++ .option name value :: more, stopped)
    else
      let (more, stopped) := pieces specs rest
      (.plain arg :: more, stopped)

/-- What may be given only once: every option but the verbosity, and the source file. -/
def onceName? : Piece → Option (Option Text)
  | .flag name => if name = verbosity.long then none else some (some name)
  | .option name _ => some (some name)
  | .plain _ => some none

/-- The value is one that its option takes: a number for a line or column, anything for a
function, and a path that is not empty otherwise. -/
def fits : Piece → Bool
  | .flag _ => true
  | .option name value =>
    if name = "line" ∨ name = "col" then (Text.natural? value).isSome
    else name = "function" || !value.isEmpty
  | .plain value => !value.isEmpty

def value? (pieces : List Piece) (name : Text) : Option Text :=
  pieces.findSome? fun piece =>
    match piece with
    | .option other value => if other = name then some value else none
    | _ => none

def hasFlag (pieces : List Piece) (name : Text) : Bool := pieces.contains (.flag name)

def required (pieces : List Piece) (name : Text) : Except Usage Text :=
  match value? pieces name with
  | some value => .ok value
  | none => .error .wrong

def sourcePath (pieces : List Piece) : Except Usage Text :=
  match pieces.findSome? fun piece => match piece with
    | .plain value => some value
    | _ => none with
  | some file => .ok file
  | none => .error .wrong

/-- The position to insert at: a line and a column, or neither. -/
def position (pieces : List Piece) : Except Usage (Option Position) :=
  match value? pieces "line", value? pieces "col" with
  | none, none => .ok none
  | some line, some column =>
    match Text.natural? line, Text.natural? column with
    | some line, some column => .ok (some ⟨line, column⟩)
    | _, _ => .error .wrong
  | _, _ => .error .wrong

def indexFiles (pieces : List Piece) : IndexFiles :=
  ⟨value? pieces "symbols", value? pieces "connectors"⟩

/-- The command for the arguments after the name of a subcommand. A fault among the arguments
before the one that asks for help is reported first. -/
def ofPieces (name : Text) (pieces : List Piece) (stopped : Option Usage) :
    Except Usage Command := do
  if ¬ ((pieces.filterMap onceName?).Nodup ∧ pieces.all fits) then throw .wrong
  match stopped with
  | some usage => throw usage
  | none => pure ()
  let file ← sourcePath pieces
  let pretty := hasFlag pieces "pretty"
  if name = "analyze" then
    let function ← required pieces "function"
    pure (.analyze file function (indexFiles pieces) (hasFlag pieces "tree") pretty)
  else
    let node ← required pieces "node"
    let insertAt ← position pieces
    if name = "generate" then pure (.generate file node insertAt pretty)
    else
      let function ← required pieces "function"
      pure (.sync file function node insertAt (indexFiles pieces) (hasFlag pieces "write") pretty)

/-- Help for everything, for one subcommand, or for the help itself. -/
def helpOn : List Text → Usage
  | [] => .help
  | [name] => if name = "help" ∨ (optionsOf? name).isSome then .help else .wrong
  | _ => .wrong

def ofArguments : List Text → Except Usage Command
  | [] => .error .wrong
  | arg :: rest =>
    if looksLikeOption arg then
      match optionArgument globalOptions arg with
      | .error usage => .error usage
      | .ok _ => ofArguments rest
    else if arg = "help" then .error (helpOn rest)
    else match optionsOf? arg with
      | none => .error .wrong
      | some specs =>
        let (pieces, stopped) := pieces specs rest
        ofPieces arg pieces stopped

end Command

end Flowchart
