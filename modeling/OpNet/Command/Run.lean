import OpNet.Command.Options
import OpNet.Session
import OpNet.Store

/-!
The command line: load a net, apply rules to it one after another, and save the result. Nothing is
saved unless every pass succeeds.
-/
namespace OpNet.Command

structure Files (m : Type → Type) where
  read : String → m (Except Error Pack.Bytes)
  write : String → Pack.Bytes → m (Except Error Unit)

def storeFiles : Files (StateM Store) where
  read path := fun store => (store.read path, store)
  write path bytes := fun store =>
    match store.write path bytes with
    | .ok store => (.ok (), store)
    | .error e => (.error e, store)

structure Report where
  out : List String := []
  err : List String := []
  fault : Option Fault := none
  deriving DecidableEq, Repr, Inhabited

namespace Report

def lines (ls : List String) : String := String.join (ls.map (· ++ "\n"))

def stdout (r : Report) : String := lines r.out

def stderr (r : Report) : String :=
  lines (r.err ++ (r.fault.map fun fault => "\x1b[31mError: " ++ fault.message ++ "\x1b[0m").toList)

def code (r : Report) : Nat := if r.fault.isSome then 1 else 0

end Report

def versionLine : String := "netform 0.1.0"

def helpText : String :=
"\x1b[1mnetform\x1b[0m - Rule-driven subgraph rewriting for operator networks

\x1b[1mUSAGE:\x1b[0m
    netform [OPTIONS] <INPUT>

\x1b[1mARGUMENTS:\x1b[0m
    <INPUT>    Network description (MessagePack)

\x1b[1mOPTIONS:\x1b[0m
    -t, --transform KEY    Apply a transform (repeatable, applied in order)
    -o, --output PATH      Write the transformed network
    --strategy NAME        Override match strategy (connected, ordered, unrestricted)
    --max-expansions N     Abort a search after N expansions
    --list                 List available transforms
    -h, --help             Print help information
    -V, --version          Print version information

\x1b[1mDEBUG OPTIONS:\x1b[0m
    --trace                Print pass events to stderr
    --json                 Print trace events as JSON

\x1b[1mEXAMPLES:\x1b[0m
    netform --list
    netform -t fuse_conv_relu net.msgpack
    netform -t fuse_conv_relu -t fuse_fc_relu -o out.msgpack net.msgpack
    netform --trace --strategy connected -t fuse_conv_relu net.msgpack"

def netLine (net : Net) : String :=
  let name := if net.name = "" then "<unnamed>" else net.name
  "\x1b[1m" ++ name ++ "\x1b[0m: " ++ s!"{net.ops.length} ops"

def summaryLine (s : PassSummary) : String := "  " ++ s.text

def session (o : Options) (net : Net) : Session where
  net := net
  config := { strategy := o.strategy, maxExpansions := o.maxExpansions }
  tracer := if o.trace then .ofConfig { enabled := true, output := .stderr, json := o.json }
    else .disabled

/-- The session after the rules up to the first that fails, the summaries of those before it, and
the failure. -/
def applyRules (s : Session) : List String → Session × List PassSummary × Option Error
  | [] => (s, [], none)
  | key :: keys =>
    match s.apply key with
    | (s, .error e) => (s, [], some e)
    | (s, .ok summary) =>
      let (s, summaries, failure) := applyRules s keys
      (s, summary :: summaries, failure)

section
variable {m : Type → Type} [Monad m] (files : Files m)

def transform (o : Options) (input : String) : m Report := do
  match (← files.read input).bind Pack.decode with
  | .error e => return { fault := some (.failed e) }
  | .ok net =>
    let (s, summaries, failure) := applyRules (session o net) o.rules
    let out := netLine net :: summaries.map summaryLine
    let err := s.tracer.shown.toList
    match failure, o.output with
    | some e, _ => return { out, err, fault := some (.failed e) }
    | none, none => return { out, err }
    | none, some path =>
      match ← files.write path (Pack.encode s.net) with
      | .ok () => return { out := out ++ ["Wrote " ++ path], err }
      | .error e => return { out, err, fault := some (.failed e) }

def execute (o : Options) : m Report :=
  if o.help then return { out := [helpText] }
  else if o.version then return { out := [versionLine] }
  else if o.list then return { out := Catalog.builtins.keys }
  else
    match o.input with
    | none => return { fault := some .missingInput }
    | some input => transform files o input

def run (args : List String) : m Report :=
  match parseArgs args with
  | .error fault => return { fault := some fault }
  | .ok o => execute files o

end

def runOn (store : Store) (args : List String) : Report × Store :=
  (run storeFiles args).run store

end OpNet.Command
