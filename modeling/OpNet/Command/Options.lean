import OpNet.Strategy

/-!
The arguments of the command line. Options may stand in any order; an option that takes a value
takes the next argument as it is; of the options that hold one value the last counts.
-/
namespace OpNet.Command

inductive Flag
  | help
  | version
  | list
  | trace
  | json
  deriving DecidableEq, Repr

inductive ValueOption
  | rule
  | output
  | strategy
  | maxExpansions
  deriving DecidableEq, Repr

def ValueOption.name : ValueOption → String
  | rule => "--transform"
  | output => "--output"
  | strategy => "--strategy"
  | maxExpansions => "--max-expansions"

inductive Word
  | flag (flag : Flag)
  | option (option : ValueOption)
  | unknown
  | plain
  deriving DecidableEq, Repr

def spellings : List (String × Word) :=
  [("-h", .flag .help), ("--help", .flag .help),
   ("-V", .flag .version), ("--version", .flag .version),
   ("--list", .flag .list), ("--trace", .flag .trace), ("--json", .flag .json),
   ("-t", .option .rule), ("--transform", .option .rule),
   ("-o", .option .output), ("--output", .option .output),
   ("--strategy", .option .strategy), ("--max-expansions", .option .maxExpansions)]

def word (arg : String) : Word :=
  match spellings.lookup arg with
  | some known => known
  | none => if arg.toList.head? = some '-' then .unknown else .plain

inductive Fault
  | missingValue (option : ValueOption)
  | invalidLimit (value : String)
  | unknownOption (arg : String)
  | unexpectedArgument (arg : String)
  | missingInput
  | failed (error : Error)
  deriving DecidableEq, Repr

def Fault.message : Fault → String
  | missingValue option => s!"{option.name} requires a value"
  | invalidLimit value => s!"invalid --max-expansions value: {value}"
  | unknownOption arg => s!"unknown option: {arg}"
  | unexpectedArgument arg => s!"unexpected argument: {arg}"
  | missingInput => "missing <INPUT>; see --help"
  | failed error => error.message

structure Options where
  input : Option String := none
  output : Option String := none
  rules : List String := []
  strategy : Option Strategy := none
  maxExpansions : Option Nat := none
  help : Bool := false
  version : Bool := false
  list : Bool := false
  trace : Bool := false
  json : Bool := false
  deriving DecidableEq, Repr, Inhabited

def digits? : List Char → Option Nat
  | [] => none
  | cs => if cs.all Char.isDigit then some (cs.foldl (fun n c => n * 10 + (c.toNat - 48)) 0) else none

/-- Decimal digits after an optional plus sign, for a number below 2 ^ 64. -/
def limit? (value : String) : Option Nat :=
  let digits := match value.toList with
    | '+' :: rest => digits? rest
    | cs => digits? cs
  digits.filter fun n => n < UInt64.size

namespace Options

def set (o : Options) : Flag → Options
  | .help => { o with help := true }
  | .version => { o with version := true }
  | .list => { o with list := true }
  | .trace => { o with trace := true }
  | .json => { o with json := true }

def assign (o : Options) (value : String) : ValueOption → Except Fault Options
  | .rule => .ok { o with rules := o.rules ++ [value] }
  | .output => .ok { o with output := some value }
  | .strategy =>
    match Strategy.parse value with
    | .ok strategy => .ok { o with strategy := some strategy }
    | .error e => .error (.failed e)
  | .maxExpansions =>
    match limit? value with
    | some limit => .ok { o with maxExpansions := some limit }
    | none => .error (.invalidLimit value)

def place (o : Options) (arg : String) : Except Fault Options :=
  match o.input with
  | none => .ok { o with input := some arg }
  | some _ => .error (.unexpectedArgument arg)

def read (o : Options) : List String → Except Fault Options
  | [] => .ok o
  | arg :: rest =>
    match word arg with
    | .flag flag => (o.set flag).read rest
    | .option option =>
      match rest with
      | [] => .error (.missingValue option)
      | value :: rest =>
        match o.assign value option with
        | .ok o => o.read rest
        | .error fault => .error fault
    | .unknown => .error (.unknownOption arg)
    | .plain =>
      match o.place arg with
      | .ok o => o.read rest
      | .error fault => .error fault

end Options

def parseArgs (args : List String) : Except Fault Options := Options.read {} args

end OpNet.Command
