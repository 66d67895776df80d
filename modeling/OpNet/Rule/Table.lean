import OpNet.Graph.Boundary
import OpNet.Rule

/-!
Rules given as tables of conditions. A condition that is left out does not restrict.
-/
namespace OpNet

namespace Table

structure Accept where
  never : Bool := false
  maxLength : Option Nat := none
  allowed : Option (List Nat) := none
  starts : Option (List Nat) := none
  kinds : Option (List String) := none
  sequence : Option (List String) := none
  descending : Bool := false
  linked : Bool := false
  active : Bool := false
  deriving DecidableEq, Repr, Inhabited

structure Validate where
  never : Bool := false
  minLength : Option Nat := none
  maxLength : Option Nat := none
  lengths : Option (List Nat) := none
  sets : Option (List (List Nat)) := none
  endsWith : Option String := none
  deriving DecidableEq, Repr, Inhabited

structure Action where
  failOn : List (List Nat) := []
  noop : Bool := false
  replace : Option String := none
  /-- Which nodes to deactivate for a match, in place of its members. -/
  victims : List (List Nat × List Nat) := []
  deriving DecidableEq, Repr, Inhabited

def kind? (g : Graph) (i : Nat) : Option String := (g.node? i).map fun node => node.op.kind

def Accept.holds (a : Accept) (g : Graph) (grown : List Nat) (i : Nat) : Bool :=
  match g.node? i with
  | none => false
  | some node =>
    !a.never &&
    (a.maxLength.all fun n => grown.length < n) &&
    (a.allowed.all fun nodes => nodes.contains i) &&
    (a.starts.all fun nodes => !grown.isEmpty || nodes.contains i) &&
    (a.kinds.all fun kinds => kinds.contains node.op.kind) &&
    (a.sequence.all fun kinds => kinds[grown.length]? = some node.op.kind) &&
    (!a.descending || grown.getLast?.all fun last => i < last) &&
    (!a.linked || grown.getLast?.all fun last => node.parents.nodes.contains last) &&
    (!a.active || node.active)

def ascending (nodes : List Nat) : List Nat := nodes.mergeSort

def Validate.holds (v : Validate) (g : Graph) (grown : List Nat) : Bool :=
  !v.never &&
  (v.minLength.all fun n => n ≤ grown.length) &&
  (v.maxLength.all fun n => grown.length ≤ n) &&
  (v.lengths.all fun lengths => lengths.contains grown.length) &&
  (v.sets.all fun sets => sets.contains (ascending grown)) &&
  (v.endsWith.all fun kind => grown.getLast?.bind (kind? g) = some kind)

def Action.refuses (a : Action) (matched : List Nat) : Bool := a.failOn.contains matched

def Action.run (a : Action) (matched : List Nat) (g : Graph) : Except Error Graph :=
  if a.refuses matched then .error (Cause.invalidGraph .refused)
  else if a.noop then .ok g
  else
    match a.replace with
    | some kind => do
      let inputs ← g.subgraphInputs matched
      let outputs ← g.subgraphOutputs matched
      return (← g.replaceSubgraph matched { kind, inputs, outputs }).1
    | none => g.deactivateAll ((a.victims.lookup matched).getD matched)

end Table

structure Table where
  name : String := ""
  strategy : Strategy := .connected
  accept : Table.Accept := {}
  validate : Table.Validate := {}
  action : Table.Action := {}
  deriving DecidableEq, Repr, Inhabited

def Table.rule (t : Table) : Rule where
  name := t.name
  strategy := t.strategy
  accept := t.accept.holds
  validate := t.validate.holds
  rewrite matched g := .ofChange g (t.action.run matched g)

end OpNet
