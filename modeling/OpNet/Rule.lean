import OpNet.Strategy
import OpNet.Graph.Edit

/-!
Rewrite rules. A rule says which node may join a growing match, which matches are complete, and
how a match is replaced. Only the last may change the graph.
-/
namespace OpNet

structure Match where
  nodes : List Nat
  deriving DecidableEq, Repr, Inhabited

namespace Match

def length (m : Match) : Nat := m.nodes.length

def isEmpty (m : Match) : Bool := m.nodes.isEmpty

def contains (m : Match) (i : Nat) : Bool := m.nodes.contains i

end Match

structure Rewritten where
  graph : Graph
  failure : Option Error := none

namespace Rewritten

def ofChange (g : Graph) : Except Error Graph → Rewritten
  | .ok changed => { graph := changed }
  | .error e => { graph := g, failure := some e }

def andThen (r : Rewritten) (change : Graph → Except Error Graph) : Rewritten :=
  match r.failure with
  | none => ofChange r.graph (change r.graph)
  | some _ => r

end Rewritten

structure Rule where
  name : String
  strategy : Strategy := .connected
  /-- May this node be added to these? Asked with no nodes to begin a match. -/
  accept : Graph → List Nat → Nat → Bool
  validate : Graph → List Nat → Bool
  rewrite : List Nat → Graph → Rewritten

end OpNet
