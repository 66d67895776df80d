import OpNet.Pass
import OpNet.Text.Quoted
import OpNet.Trace.Buffer
import OpNet.Trace.Human
import OpNet.Trace.Json

/-!
A tracer records what passes find and do, unless it is off. Each pass start opens a new pass
number; the events after it belong to that pass.
-/
namespace OpNet.Trace

inductive Output
  | none
  | stderr
  deriving DecidableEq, Repr, Inhabited

structure Config where
  enabled : Bool := false
  bufferSize : Nat := 10000
  output : Output := .none
  json : Bool := false
  filter : List String := []
  deriving DecidableEq, Repr, Inhabited

namespace Config

def admits (config : Config) (event : Event) : Bool :=
  config.filter.isEmpty || config.filter.contains event.kind

def dump (config : Config) : String :=
  Text.record "TracerConfig"
    [("enabled", toString config.enabled),
     ("buffer_size", toString config.bufferSize),
     ("output", match config.output with
       | .none => "None"
       | .stderr => "Stderr"),
     ("json_format", toString config.json),
     ("event_filter", Text.bracketed "[" "]" (config.filter.map Text.quoted))]

end Config

structure Tracer where
  config : Config := {}
  buffer : Buffer := {}
  currentPass : Nat := 0
  now : Nat := 0
  shown : Array String := #[]
  deriving Repr, Inhabited

namespace Tracer

def ofConfig (config : Config) : Tracer where
  config := config
  buffer := { maxSize := config.bufferSize }

def disabled : Tracer := ofConfig {}

def toStderr : Tracer := ofConfig { enabled := true, output := .stderr }

def isEnabled (t : Tracer) : Bool := t.config.enabled

def enable (t : Tracer) : Tracer := { t with config := { t.config with enabled := true } }

def disable (t : Tracer) : Tracer := { t with config := { t.config with enabled := false } }

def setJson (t : Tracer) (json : Bool) : Tracer := { t with config := { t.config with json } }

def setOutput (t : Tracer) (output : Output) : Tracer :=
  { t with config := { t.config with output } }

def clear (t : Tracer) : Tracer := { t with buffer := t.buffer.clear }

def formatRecord (t : Tracer) (r : Record) : String :=
  if t.config.json then Json.record r else Human.record { timestamps := true } r

def formatRecords (t : Tracer) (rs : List Record) : String :=
  if t.config.json then Json.compact rs else Human.records { timestamps := true } rs

def echo (t : Tracer) : Tracer :=
  match t.config.output, t.buffer.last? with
  | .stderr, some r => { t with shown := t.shown.push (t.formatRecord r) }
  | _, _ => t

def record (t : Tracer) (event : Event) : Tracer :=
  if t.config.enabled && t.config.admits event then
    echo { t with buffer := t.buffer.push t.currentPass t.now event }
  else t

def recordAll (t : Tracer) (events : List Event) : Tracer := events.foldl record t

/-- Opens a new pass, also while the tracer is off. -/
def passStart (t : Tracer) (rule : String) (strategy : Strategy) : Tracer :=
  { t with currentPass := t.currentPass + 1 }.record (.passStart rule strategy)

def foundEvents (found : List Match) : List Event :=
  found.zipIdx.map fun entry => .matchFound entry.2 entry.1.nodes

def outcomeEvent (index : Nat) : Apply.Outcome → Event
  | .applied nodes => .matchApplied index nodes
  | .skipped nodes inactive => .matchSkipped index nodes inactive

def outcomeEvents (outcomes : List Apply.Outcome) : List Event :=
  outcomes.zipIdx.map fun entry => outcomeEvent entry.2 entry.1

def passEvents (report : PassReport) : List Event :=
  foundEvents report.found ++ [.searchStats report.stats] ++
    outcomeEvents report.apply.outcomes ++
    [.passEnd report.rule report.apply.appliedCount report.apply.skippedCount true]

/-- A failed rewrite is an event about its match; any other failure is a custom event. -/
def failureEvent (error : Error) : Event :=
  match error.cause with
  | .rewriteFailed index nodes reason => .rewriteFailed index nodes reason
  | cause => .custom "error" cause.message

def failureEvents (rule : String) (error : Error) : List Event :=
  [failureEvent error, .passEnd rule 0 0 false]

def recordPass (t : Tracer) (report : PassReport) : Tracer :=
  if t.config.enabled then
    (t.passStart report.rule report.strategy).recordAll (passEvents report)
  else t

def recordFailure (t : Tracer) (rule : String) (strategy : Strategy) (error : Error) : Tracer :=
  if t.config.enabled then
    (t.passStart rule strategy).recordAll (failureEvents rule error)
  else t

def dump (t : Tracer) : String :=
  Text.openRecord "Tracer"
    [("config", t.config.dump), ("current_pass", toString t.currentPass),
     ("records", toString t.buffer.size)]

end Tracer

end OpNet.Trace
