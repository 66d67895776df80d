import OpNet.Rule

/-!
Rewriting matches one after another. An earlier rewrite may have replaced a node of a later
match; such a match is skipped whole. The first failure ends the phase, and what was rewritten
before it stays rewritten.
-/
namespace OpNet.Apply

inductive Outcome
  | applied (nodes : List Nat)
  | skipped (nodes : List Nat) (inactive : Nat)
  deriving DecidableEq, Repr

namespace Outcome

def nodes : Outcome → List Nat
  | applied nodes | skipped nodes _ => nodes

def isApplied : Outcome → Bool
  | applied _ => true
  | skipped .. => false

def inactive? : Outcome → Option Nat
  | applied _ => none
  | skipped _ inactive => some inactive

end Outcome

structure Report where
  outcomes : List Outcome := []
  deriving DecidableEq, Repr, Inhabited

namespace Report

def appliedCount (r : Report) : Nat := r.outcomes.countP Outcome.isApplied

def skippedCount (r : Report) : Nat := r.outcomes.length - r.appliedCount

end Report

structure Progress where
  graph : Graph
  outcomes : List Outcome := []
  failure : Option Error := none

namespace Progress

def report (p : Progress) : Except Error Report :=
  match p.failure with
  | none => .ok { outcomes := p.outcomes }
  | some e => .error e

/-- The matches that the rule was asked to rewrite, the failing one included. -/
def attempted (p : Progress) : List (List Nat) :=
  (p.outcomes.filter Outcome.isApplied).map Outcome.nodes ++
    match p.failure with
    | some { cause := .rewriteFailed _ nodes _, .. } => [nodes]
    | _ => []

end Progress

def stale? (g : Graph) (m : Match) : Option Nat :=
  m.nodes.find? fun i => !g.isActive i

def step (rule : Rule) (p : Progress) (index : Nat) (m : Match) : Progress :=
  match stale? p.graph m with
  | some inactive => { p with outcomes := p.outcomes ++ [.skipped m.nodes inactive] }
  | none =>
    match rule.rewrite m.nodes p.graph with
    | { graph, failure := none } => { graph, outcomes := p.outcomes ++ [.applied m.nodes] }
    | { graph, failure := some e } =>
      { p with
        graph
        failure := some
          (({ cause := .rewriteFailed index m.nodes e.message } : Error).during
            rule.name "apply_matches") }

def continueFrom (rule : Rule) (p : Progress) (index : Nat) : List Match → Progress
  | [] => p
  | m :: rest =>
    match p.failure with
    | some _ => p
    | none => continueFrom rule (step rule p index m) (index + 1) rest

def applyMatches (rule : Rule) (found : List Match) (g : Graph) : Progress :=
  continueFrom rule { graph := g } 0 found

end OpNet.Apply
