import OpNet.Apply
import OpNet.Graph.OfNet
import OpNet.Graph.Order
import OpNet.Search

/-!
One pass of a rule: find the matches, rewrite them, and write the graph back as a net.
-/
namespace OpNet

structure PassReport where
  rule : String
  strategy : Strategy
  found : List Match
  stats : Search.Stats
  apply : Apply.Report
  deriving DecidableEq, Repr

structure Pass where
  rule : Rule
  config : Search.Config := {}

/-- The state after a pass over a graph. A failed pass keeps what was rewritten before. -/
structure PassRun where
  graph : Graph
  report : Except Error PassReport
  attempted : List (List Nat) := []

namespace Pass

def strategy (pass : Pass) : Strategy := pass.config.strategyFor pass.rule

def search (pass : Pass) (g : Graph) : Except Error Search.Found :=
  (Search.findMatches g pass.rule pass.config).mapError
    (·.during pass.rule.name "pattern_match")

def findMatches (pass : Pass) (g : Graph) : Except Error (List Match) :=
  (pass.search g).map Search.Found.found

def run (pass : Pass) (g : Graph) : PassRun :=
  match pass.search g with
  | .error e => { graph := g, report := .error e }
  | .ok { found, stats } =>
    let p := Apply.applyMatches pass.rule found g
    { graph := p.graph
      report := p.report.map fun apply =>
        { rule := pass.rule.name, strategy := pass.strategy, found, stats, apply }
      attempted := p.attempted }

def runNet (pass : Pass) (net : Net) : Except Error (PassReport × Net) := do
  let result := pass.run (Graph.ofNet net)
  let report ← result.report
  return (report, ← result.graph.toNet)

def applyTo (pass : Pass) (net : Net) : Except Error Net :=
  (pass.runNet net).map Prod.snd

end Pass

end OpNet
