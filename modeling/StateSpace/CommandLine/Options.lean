import StateSpace.Configuration
import StateSpace.Text.Numeral

/-!
# Options of the command line

The command line takes one file and options with two dashes. An option takes its value from behind
an equals sign or from the next argument, which must not look like an option itself. No option may
be given twice, and behind a lone pair of dashes everything is a file.
-/

namespace StateSpace.CommandLine

inductive LogLevel where
  | off
  | error
  | warn
  | info
  | debug
  | trace
  deriving DecidableEq, Repr, Inhabited

/-- Reads a log level in any letter case. -/
def LogLevel.ofName? (text : String) : Option LogLevel :=
  [("off", off), ("error", error), ("warn", warn), ("info", info), ("debug", debug),
    ("trace", trace)].findSome? fun (name, level) =>
      if Text.sameIgnoringCase name text then some level else none

structure Options where
  input : String
  mode : Mode := .unroll
  maxDepth : Option Nat := none
  profile : Bool := false
  save : Option String := none
  encoded : Bool := false
  logLevel : LogLevel := .info
  cacheBits : Nat := 16
  deriving DecidableEq, Repr, Inhabited

inductive UsageError where
  | unexpectedArgument (text : String)
  | missingValue (option : String)
  | unexpectedValue (option : String)
  | repeated (option : String)
  | invalidValue (option text : String)
  | missingFile
  deriving DecidableEq, Repr, Inhabited

def UsageError.message : UsageError → String
  | unexpectedArgument text => s!"unexpected argument '{text}' found"
  | missingValue option => s!"a value is required for '{option}' but none was supplied"
  | unexpectedValue option => s!"unexpected value for '{option}' found; no more were expected"
  | repeated option => s!"the argument '{option}' cannot be used multiple times"
  | invalidValue option text => s!"invalid value '{text}' for '{option}'"
  | missingFile => "the following required arguments were not provided: <FILE>"

inductive Request where
  | run (options : Options)
  | help
  | version
  deriving DecidableEq, Repr, Inhabited

structure Given where
  input : Option String := none
  mode : Option Mode := none
  maxDepth : Option Nat := none
  profile : Bool := false
  save : Option String := none
  encoded : Bool := false
  logLevel : Option LogLevel := none
  cacheBits : Option Nat := none
  deriving Inhabited

namespace Given

/-- The options, with the defaults for what was not given. -/
def toRequest (g : Given) : Except UsageError Request :=
  match g.input with
  | none => .error .missingFile
  | some input =>
    .ok (.run
      { input, maxDepth := g.maxDepth, profile := g.profile, save := g.save, encoded := g.encoded,
        mode := g.mode.getD .unroll, logLevel := g.logLevel.getD .info,
        cacheBits := g.cacheBits.getD 16 })

/-- Takes the value of an option, which is not given yet and has to be readable. -/
def once {α : Type} (option text : String) (before : Option α) (value : Option α) :
    Except UsageError (Option α) :=
  match before, value with
  | some _, _ => .error (.repeated option)
  | none, none => .error (.invalidValue option text)
  | none, some a => .ok (some a)

/-- Reads a path, which must not be empty. -/
def path? (text : String) : Option String :=
  if text.isEmpty then none else some text

def number? (text : String) : Option Nat :=
  Text.unsigned64? text.toList

def takeFile (g : Given) (text : String) : Except UsageError Given :=
  match g.input, path? text with
  | some _, _ => .error (.unexpectedArgument text)
  | none, none => .error (.invalidValue "<FILE>" text)
  | none, some path => .ok { g with input := some path }

def takeOption (g : Given) (option text : String) : Except UsageError Given := do
  match option with
  | "--mode" => return { g with mode := ← once option text g.mode (Mode.ofName? text) }
  | "--max-depth" => return { g with maxDepth := ← once option text g.maxDepth (number? text) }
  | "--save" => return { g with save := ← once option text g.save (path? text) }
  | "--log-level" =>
    return { g with logLevel := ← once option text g.logLevel (LogLevel.ofName? text) }
  | "--cache-bits" => return { g with cacheBits := ← once option text g.cacheBits (number? text) }
  | _ => throw (.unexpectedArgument option)

/-- Takes an option that is only switched on; none if there is no such option. -/
def takeSwitch? (g : Given) (option : String) : Option (Except UsageError Given) :=
  match option with
  | "--profile" =>
    some (if g.profile then .error (.repeated option) else .ok { g with profile := true })
  | "--encoded" =>
    some (if g.encoded then .error (.repeated option) else .ok { g with encoded := true })
  | _ => none

end Given

def valueOptions : List String := ["--mode", "--max-depth", "--save", "--log-level", "--cache-bits"]

/-- Whether an argument looks like an option. A lone dash does not. -/
def looksLikeOption (arg : String) : Bool :=
  "-".toList.isPrefixOf arg.toList && arg != "-"

/-- The request of an argument that asks about the program itself. The letter of a short one counts
whatever follows it. -/
def inquiry? (arg : String) : Option Request :=
  match arg.toList with
  | '-' :: 'h' :: _ => some .help
  | '-' :: 'V' :: _ => some .version
  | _ => if arg = "--help" then some .help else if arg = "--version" then some .version else none

def splitValue (arg : String) : String × Option String :=
  let cs := arg.toList
  match cs.dropWhile (· != '=') with
  | [] => (arg, none)
  | _ :: value => (String.ofList (cs.takeWhile (· != '=')), some (String.ofList value))

def parseFrom (g : Given) : List String → Except UsageError Request
  | [] => g.toRequest
  | "--" :: rest => do
    let g ← rest.foldlM Given.takeFile g
    g.toRequest
  | arg :: rest =>
    if let some inquiry := inquiry? arg then .ok inquiry
    else if !looksLikeOption arg then do
      let g ← g.takeFile arg
      parseFrom g rest
    else
      match splitValue arg with
      | (option, some value) => do
        if (g.takeSwitch? option).isSome then throw (.unexpectedValue option)
        let g ← g.takeOption option value
        parseFrom g rest
      | (option, none) =>
        match g.takeSwitch? option with
        | some taken => do
          let g ← taken
          parseFrom g rest
        | none =>
          if !valueOptions.contains option then .error (.unexpectedArgument option)
          else
            match rest with
            | [] => .error (.missingValue option)
            | value :: rest =>
              if looksLikeOption value then .error (.missingValue option)
              else do
                let g ← g.takeOption option value
                parseFrom g rest

def parse (args : List String) : Except UsageError Request :=
  parseFrom {} args

end StateSpace.CommandLine
