import ScriptInventory.Config
import ScriptInventory.Report.Format

/-!
# Command lines

What a list of arguments asks for. Options have values, behind an equals sign or as
the next argument, or are switches. Options for all commands may stand in front of
the command and behind it, where the latter counts. Behind two dashes nothing is an
option any more.
-/

namespace ScriptInventory.CommandLine

/-- What is to be done. -/
inductive Command where
  /-- Scan a directory. -/
  | scan (root : String) (format : Report.Format) (extensions : Option (List String))
      (excluded : List String) (respectsIgnoreFiles : Bool)
  /-- Scan the page of a manifest. -/
  | page (manifest : String) (strategy : Option Strategy) (format : Report.Format)
  /-- Show the inventory of a file. -/
  | inspect (file : String) (byPattern : Bool)
deriving DecidableEq, Repr, Inhabited

/-- What arguments ask for. -/
inductive Request where
  | run (config : Option String) (command : Command)
  | version
  | help
deriving DecidableEq, Repr, Inhabited

/-- An argument that is understood: an option with a value, a switch, or something to
work on. -/
inductive Item where
  | option (name value : String)
  | switch (name : String)
  | operand (value : String)
deriving DecidableEq, Repr, Inhabited

/-- The options of a command. -/
structure Options where
  withValue : List String
  switches : List String

/-- Whether an argument looks like an option. A dash alone does not, so that it can be a
path. -/
def isOption (argument : String) : Bool := argument.startsWith "-" && argument != "-"

/-- The name and the value of an argument with an equals sign. -/
def splitValue (argument : String) : String × Option String :=
  let chars := argument.toList
  let name := chars.takeWhile (· != '=')
  match chars.drop name.length with
  | [] => (argument, none)
  | _ :: value => (String.ofList name, some (String.ofList value))

/-- Understands the arguments of a command. Without a result some argument is not
understood. -/
def items? (o : Options) : List String → Option (List Item)
  | [] => some []
  | argument :: rest =>
    if argument = "--" then some (rest.map .operand)
    else if isOption argument then
      let (name, value) := splitValue argument
      if o.withValue.contains name then
        match value with
        | some value => (items? o rest).map (.option name value :: ·)
        | none =>
          match rest with
          | [] => none
          | value :: rest =>
            if isOption value then none else (items? o rest).map (.option name value :: ·)
      else if value.isNone && o.switches.contains name then
        (items? o rest).map (.switch name :: ·)
      else none
    else (items? o rest).map (.operand argument :: ·)

namespace Item

def values (items : List Item) (name : String) : List String :=
  items.filterMap fun
    | .option n v => if n = name then some v else none
    | _ => none

/-- The value of an option that may be given once. -/
def value? (items : List Item) (name : String) : Option (Option String) :=
  match values items name with
  | [] => some none
  | [v] => some (some v)
  | _ => none

/-- The value of an option that is a path, which may not be empty. -/
def path? (items : List Item) (name : String) : Option (Option String) :=
  match value? items name with
  | some (some "") => none
  | v => v

/-- Whether a switch is set, which may be given once. -/
def isSet? (items : List Item) (name : String) : Option Bool :=
  match items.count (.switch name) with
  | 0 => some false
  | 1 => some true
  | _ => none

/-- The one thing to work on, which is a path and may not be empty. -/
def operand? (items : List Item) : Option String :=
  let found := items.filterMap fun
    | .operand v => some v
    | _ => none
  match found with
  | [""] => none
  | [v] => some v
  | _ => none

/-- The value of an option with a choice of values, if it is given. -/
def choice? {α : Type} (items : List Item) (name : String) (ofName? : String → Option α) :
    Option (Option α) :=
  match value? items name with
  | none => none
  | some none => some none
  | some (some v) => (ofName? v).map some

end Item

/-- The parts of a text between its commas. -/
def commaParts (text : String) : List String :=
  (text.toList.splitOn ',').map String.ofList

def commonOptions : List String := ["--log-level", "--config"]

/-- Checks the options for all commands, and gives the settings file, if there is
one. -/
def settings? (items : List Item) : Option (Option String) := do
  let _ ← Item.value? items "--log-level"
  Item.path? items "--config"

/-- The options of the command that scans a directory. -/
def scanOptions : Options :=
  ⟨commonOptions ++ ["--format", "--ext", "--exclude-dir"], ["--respect-ignore"]⟩

/-- The command that scans a directory. -/
def scan? (items : List Item) : Option Command := do
  let root ← Item.operand? items
  let format ← Item.choice? items "--format" Report.Format.ofName?
  let extensions := Item.values items "--ext"
  let respectsIgnoreFiles ← Item.isSet? items "--respect-ignore"
  pure (.scan root (format.getD .text)
    (if extensions.isEmpty then none else some (extensions.flatMap commaParts))
    (Item.values items "--exclude-dir") respectsIgnoreFiles)

/-- The options of the command that scans a page. -/
def pageOptions : Options := ⟨commonOptions ++ ["--strategy", "--format"], []⟩

def page? (items : List Item) : Option Command := do
  let manifest ← Item.operand? items
  let strategy ← Item.choice? items "--strategy" fun n =>
    (Strategy.named.find? fun s => s.1 = n).map Prod.snd
  let format ← Item.choice? items "--format" Report.Format.ofName?
  pure (.page manifest strategy (format.getD .json))

/-- The options of the command that shows an inventory. -/
def inspectOptions : Options := ⟨commonOptions, ["--pattern"]⟩

/-- The command that shows an inventory. -/
def inspect? (items : List Item) : Option Command := do
  let file ← Item.operand? items
  let byPattern ← Item.isSet? items "--pattern"
  pure (.inspect file byPattern)

def commandOf? : String → Option (Options × (List Item → Option Command))
  | "scan" => some (scanOptions, scan?)
  | "page" => some (pageOptions, page?)
  | "inspect" => some (inspectOptions, inspect?)
  | _ => none

/-- Whether an argument asks for help. -/
def isHelp (argument : String) : Bool := argument = "--help" || argument = "-h"

/-- Understands a command and its arguments; `above` has the options in front of the
command. -/
def command? (above : List Item) (name : String) (arguments : List String) : Option Request :=
  if name = "help" then some .help
  else do
    let (options, make) ← commandOf? name
    let ownArguments := arguments.takeWhile (· != "--")
    if ownArguments.any isHelp then some .help
    else do
      let items ← items? options arguments
      let outer ← settings? above
      let inner ← settings? items
      let command ← make items
      pure (.run (inner.or outer) command)

/-- Understands arguments in front of a command; `above` has those that were
understood, latest first. -/
def request? (above : List Item) : List String → Option Request
  | [] => none
  | argument :: rest =>
    if argument = "--version" || argument = "-V" then (settings? above).map fun _ => .version
    else if isHelp argument then (settings? above).map fun _ => .help
    else if isOption argument then
      let (name, value) := splitValue argument
      if commonOptions.contains name then
        match value with
        | some value => request? (.option name value :: above) rest
        | none =>
          match rest with
          | [] => none
          | value :: rest =>
            if isOption value then none else request? (.option name value :: above) rest
      else none
    else command? above argument rest

end ScriptInventory.CommandLine
