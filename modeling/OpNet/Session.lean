import OpNet.Catalog
import OpNet.Trace.Tracer

/-!
A session applies rules by key to one net, a pass at a time. A pass that fails leaves the net, the
catalogue, the settings and the history as they were.
-/
namespace OpNet

structure PassSummary where
  rule : String
  strategy : Strategy
  found : Nat
  applied : Nat
  skipped : Nat
  opsBefore : Nat
  opsAfter : Nat
  deriving DecidableEq, Repr

namespace PassSummary

def ofReport (report : PassReport) (opsBefore opsAfter : Nat) : PassSummary where
  rule := report.rule
  strategy := report.strategy
  found := report.found.length
  applied := report.apply.appliedCount
  skipped := report.apply.skippedCount
  opsBefore := opsBefore
  opsAfter := opsAfter

def text (s : PassSummary) : String :=
  s!"{s.rule} ({s.strategy.name}): {s.found} found, {s.applied} applied, " ++
    s!"{s.skipped} skipped, {s.opsBefore} -> {s.opsAfter} ops"

def dump (s : PassSummary) : String :=
  Text.record "PassSummary"
    [("transform", Text.quoted s.rule), ("strategy", s.strategy.title),
     ("found", toString s.found), ("applied", toString s.applied),
     ("skipped", toString s.skipped), ("ops_before", toString s.opsBefore),
     ("ops_after", toString s.opsAfter)]

end PassSummary

def Search.Config.dump (config : Search.Config) : String :=
  Text.record "TransformerConfig"
    [("matcher", Text.record "MatcherConfig"
      [("strategy", Text.optional (config.strategy.map Strategy.title)),
       ("max_expansions", Text.optional (config.maxExpansions.map toString))])]

def Pass.dump (pass : Pass) : String :=
  Text.record "Transformer"
    [("transform", Text.quoted pass.rule.name), ("config", pass.config.dump)]

def Catalog.dump (c : Catalog) : String :=
  Text.bracketed "\x7b" "\x7d" (c.keys.map Text.quoted)

structure Session where
  net : Net
  catalog : Catalog := .builtins
  config : Search.Config := {}
  tracer : Trace.Tracer := .disabled
  history : List PassSummary := []

namespace Session

def pass (s : Session) (rule : Rule) : Pass := { rule, config := s.config }

def applyRule (s : Session) (rule : Rule) : Session × Except Error PassSummary :=
  match (s.pass rule).runNet s.net with
  | .ok (report, net) =>
    let summary := PassSummary.ofReport report s.net.ops.length net.ops.length
    ({ s with
        net
        tracer := s.tracer.recordPass report
        history := s.history ++ [summary] }, .ok summary)
  | .error e =>
    ({ s with tracer := s.tracer.recordFailure rule.name (s.pass rule).strategy e }, .error e)

/-- Runs the rule registered under `key` as one pass; an unknown key leaves no trace. -/
def apply (s : Session) (key : String) : Session × Except Error PassSummary :=
  match s.catalog.create key with
  | .ok rule => s.applyRule rule
  | .error e => (s, .error e)

def applyAll (s : Session) : List String → Session × Except Error (List PassSummary)
  | [] => (s, .ok [])
  | key :: keys =>
    match s.apply key with
    | (s, .error e) => (s, .error e)
    | (s, .ok summary) =>
      let (s, rest) := s.applyAll keys
      (s, rest.map (summary :: ·))

def dump (s : Session) : String :=
  Text.openRecord "Session"
    [("net", Text.quoted s.net.name), ("registry", s.catalog.dump), ("config", s.config.dump),
     ("history", Text.bracketed "[" "]" (s.history.map PassSummary.dump))]

end Session

end OpNet
