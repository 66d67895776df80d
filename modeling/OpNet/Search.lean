import OpNet.Marks
import OpNet.Rule

/-!
Finding matches. From each node in turn that no earlier match has taken, the search grows a match
node by node, asks the rule about every node that the strategy offers, and keeps the first of the
longest complete matches that it passes. What is taken is never given back.
-/
namespace OpNet.Search

structure Config where
  strategy : Option Strategy := none
  maxExpansions : Option Nat := none
  deriving DecidableEq, Repr, Inhabited

structure Stats where
  expansions : Nat := 0
  tried : Nat := 0
  accepted : Nat := 0
  deriving DecidableEq, Repr, Inhabited

def Config.strategyFor (config : Config) (rule : Rule) : Strategy :=
  config.strategy.getD rule.strategy

/-- The nodes a strategy offers to a growing match, in the order of asking; never a member, and
never a node that an earlier match has taken. A neighbour of several members is offered once for
each. -/
def candidates (g : Graph) (taken : Marks) (grown : List Nat) : Strategy → List Nat
  | .connected =>
    (grown.flatMap fun i => (g.children i).nodes ++ (g.parents i).nodes).filter fun i =>
      !grown.contains i && !taken.has i && i < g.size
  | .ordered =>
    let first := (grown.getLast?.map (· + 1)).getD 0
    (List.range' first (g.size - first)).filter fun i => !taken.has i
  | .unrestricted =>
    (List.range g.size).filter fun i => !grown.contains i && !taken.has i

structure Progress where
  best : List Nat := []
  stats : Stats := {}
  deriving DecidableEq, Repr, Inhabited

section
variable (g : Graph) (rule : Rule) (config : Config)

def offer (grown : List Nat) (i : Nat) (p : Progress) : Bool × Progress :=
  let yes := rule.accept g grown i
  (yes, { p with
    stats := { p.stats with
      tried := p.stats.tried + 1
      accepted := p.stats.accepted + if yes then 1 else 0 } })

def count (p : Progress) : Except Error Progress :=
  let expansions := p.stats.expansions + 1
  match config.maxExpansions with
  | some limit =>
    if limit < expansions then .error (Cause.limitExceeded limit (some rule.name))
    else .ok { p with stats := { p.stats with expansions } }
  | none => .ok { p with stats := { p.stats with expansions } }

def keep (grown : List Nat) (p : Progress) : Progress :=
  if rule.validate g grown && p.best.length < grown.length then { p with best := grown } else p

/-- Explores every match that begins with `grown`, depth first. A match holds no node twice, so
`room`, the number of nodes it may still gain, bounds the depth. -/
def expand (taken : Marks) : (room : Nat) → (grown : List Nat) → Progress →
    Except Error Progress
  | room, grown, p => do
    let p := keep g rule grown (← count rule config p)
    match room with
    | 0 => return p
    | room + 1 =>
      (candidates g taken grown (config.strategyFor rule)).foldlM (fun p i =>
        let (yes, p) := offer g rule grown i p
        if yes then expand taken room (grown ++ [i]) p else .ok p) p

def fromStart (taken : Marks) (start : Nat) (stats : Stats) : Except Error Progress :=
  if taken.has start then .ok { stats }
  else
    let (yes, p) := offer g rule [] start { stats }
    if yes then expand g rule config taken (g.size - 1) [start] p else .ok p

end

structure Found where
  found : List Match := []
  stats : Stats := {}
  deriving DecidableEq, Repr, Inhabited

namespace Found

def taken (f : Found) (bound : Nat) : Marks := .ofList bound (f.found.flatMap Match.nodes)

def add (f : Found) (p : Progress) : Found :=
  { found := if p.best.isEmpty then f.found else f.found ++ [⟨p.best⟩]
    stats := p.stats }

end Found

def findMatches (g : Graph) (rule : Rule) (config : Config) : Except Error Found :=
  (List.range g.size).foldlM (fun f start => do
    return f.add (← fromStart g rule config (f.taken g.size) start f.stats)) {}

end OpNet.Search
