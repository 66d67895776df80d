import OpNet.Graph.Edit

/-!
The boundary of a set of nodes, and its replacement by one node. A blob enters the set when a
member reads it from elsewhere, and leaves it when something outside can see it.
-/
namespace OpNet.Graph

def firstSeen (blobs : List String) : List String := blobs.eraseDups

def suppliedWithin (g : Graph) (members : List Nat) (i : Nat) (blob : String) : Bool :=
  (g.parents i).any fun link => link.label = blob && members.contains link.node

def readOutside (g : Graph) (members : List Nat) (i : Nat) (blob : String) : Bool :=
  (g.children i).any fun link =>
    link.label = blob && !members.contains link.node && g.isActive link.node

def entering (g : Graph) (members : List Nat) : List String :=
  firstSeen (members.flatMap fun i =>
    (g.inputs i).filter fun blob => !g.suppliedWithin members i blob)

def leaving (g : Graph) (members : List Nat) : List String :=
  firstSeen (members.flatMap fun i =>
    (g.outputs i).filter fun blob =>
      g.readOutside members i blob || g.externalOutputs.contains blob)

def subgraphInputs (g : Graph) (members : List Nat) : Except Error (List String) := do
  g.inRange members
  return g.entering members

def subgraphOutputs (g : Graph) (members : List Nat) : Except Error (List String) := do
  g.inRange members
  return g.leaving members

def isOutside (g : Graph) (members : List Nat) (i : Nat) : Bool :=
  !members.contains i && g.isActive i

def incoming (g : Graph) (members : List Nat) : Links :=
  members.flatMap fun i => (g.parents i).filter fun link => g.isOutside members link.node

def outgoing (g : Graph) (members : List Nat) : Links :=
  members.flatMap fun i => (g.children i).filter fun link => g.isOutside members link.node

def earlier (g : Graph) (members : List Nat) : List Nat :=
  members.flatMap fun i => (g.runsAfter i).filter (g.isOutside members)

def later (g : Graph) (members : List Nat) : List Nat :=
  members.flatMap fun i => (g.runsBefore i).filter (g.isOutside members)

/-- Joins node `i`, which holds `op`, to the neighbours that `members` have in `g`: it keeps the
edges whose blob `op` reads or writes, and all orderings. -/
def attach (g : Graph) (members : List Nat) (op : Operator) (i : Nat) (target : Graph) : Graph :=
  let fed := ((g.incoming members).filter fun link => op.reads link.label).foldl
    (fun h link => h.link link.node i link.label) target
  let feeding := ((g.outgoing members).filter fun link => op.writes link.label).foldl
    (fun h link => h.link i link.node link.label) fed
  let after := (g.earlier members).foldl (fun h first => h.precede first i) feeding
  (g.later members).foldl (fun h last => h.precede i last) after

def replaceSubgraph (g : Graph) (members : List Nat) (op : Operator) :
    Except Error (Graph × Nat) := do
  g.inRange members
  return (g.attach members op g.size ((g.withInactive members).push op), g.size)

end OpNet.Graph
