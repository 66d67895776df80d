import OpNet.Graph.Edit

/-!
Execution order of the active nodes. Every node waits for its active parents and for the active
nodes it runs after; of the nodes that wait for nothing, the least index runs next. An untouched
graph therefore keeps the order of its net, and a node added later runs as early as its
prerequisites allow.
-/
namespace OpNet.Graph

/-- What `i` waits for. A node that is both a parent and an ordering counts twice. -/
def prerequisites (g : Graph) (i : Nat) : List Nat :=
  ((g.parents i).nodes ++ g.runsAfter i).filter g.isActive

def dependents (g : Graph) (i : Nat) : List Nat :=
  ((g.children i).nodes ++ g.runsBefore i).filter g.isActive

structure Waiting where
  pending : Array Nat
  ready : List Nat
  deriving DecidableEq, Repr

namespace Waiting

def settle (w : Waiting) (i : Nat) : Waiting :=
  match w.pending[i]? with
  | some 1 => { pending := w.pending.set! i 0, ready := Ascending.insert i w.ready }
  | some left => { w with pending := w.pending.set! i (left - 1) }
  | none => w

end Waiting

def waiting (g : Graph) : Waiting where
  pending := ((List.range g.size).map fun i => (g.prerequisites i).length).toArray
  ready := g.activeNodes.filter fun i => (g.prerequisites i).isEmpty

def runReady (g : Graph) : (steps : Nat) → Waiting → List Nat
  | 0, _ => []
  | steps + 1, w =>
    match w.ready with
    | [] => []
    | i :: rest =>
      i :: g.runReady steps ((g.dependents i).foldl Waiting.settle { w with ready := rest })

def schedule (g : Graph) : List Nat := g.runReady g.size g.waiting

def topologicalOrder (g : Graph) : Except Error (List Nat) :=
  if g.schedule.length = g.activeCount then .ok g.schedule
  else .error (Cause.invalidGraph (.cycle g.schedule.length g.activeCount))

def toNet (g : Graph) : Except Error Net := do
  let order ← g.topologicalOrder
  return { name := g.name
           ops := order.filterMap fun i => (g.node? i).map Node.op
           externalInputs := g.externalInputs
           externalOutputs := g.externalOutputs }

end OpNet.Graph
