import OpNet.Proofs.LastWriter
import OpNet.Proofs.Replacement

/-!
Edits of a graph, and all that they can do. A call that fails leaves the graph as it was.
-/
namespace OpNet

inductive Edit
  | deactivate (i : Nat)
  | deactivateAll (members : List Nat)
  | push (op : Operator)
  | addEdge (source target : Nat) (blob : String)
  | removeEdge (source target : Nat)
  | addOrdering (first last : Nat)
  | replaceSubgraph (members : List Nat) (op : Operator)
  | setOp (i : Nat) (op : Operator)

namespace Graph

inductive Origin
  | empty (name : String)
  | ofNet (net : Net)

def Origin.graph : Origin → Graph
  | .empty name => { name }
  | .ofNet net => Graph.ofNet net

def attempt (g : Graph) : Edit → Except Error Graph
  | .deactivate i => g.deactivate i
  | .deactivateAll members => g.deactivateAll members
  | .push op => .ok (g.push op)
  | .addEdge source target blob => g.addEdge source target blob
  | .removeEdge source target => (g.removeEdge source target).map Prod.fst
  | .addOrdering first last => g.addOrdering first last
  | .replaceSubgraph members op => (g.replaceSubgraph members op).map Prod.fst
  | .setOp i op => g.setOp i op

def edit (g : Graph) (e : Edit) : Graph :=
  match g.attempt e with
  | .ok changed => changed
  | .error _ => g

def edited (g : Graph) (edits : List Edit) : Graph := edits.foldl edit g

def unlink (g : Graph) (source target : Nat) : Graph :=
  (g.modify source fun node => { node with children := node.children.without target }).modify
    target fun node => { node with parents := node.parents.without source }

inductive Change (g : Graph) : Graph → Prop
  | withInactive (members : List Nat) : Change g (g.withInactive members)
  | push (op : Operator) : Change g (g.push op)
  | link {source target} (blob : String) (tail : source < g.size) (head : target < g.size)
      (apart : source ≠ target) : Change g (g.link source target blob)
  | unlink (source target : Nat) : Change g (g.unlink source target)
  | precede {first last} (tail : first < g.size) (head : last < g.size) (apart : first ≠ last) :
      Change g (g.precede first last)
  | replaced (members : List Nat) (op : Operator) : Change g (g.replaced members op)
  | setOp (i : Nat) (op : Operator) : Change g (g.modify i ({ · with op }))

section
variable {g h k : Graph} {i j : Nat}

theorem nodeOk {node : Node} (found : g.node i = .ok node) : i < g.size := by
  unfold Graph.node at found
  cases here : g.node? i with
  | none => simp [here] at found
  | some other => exact someNodeIff.mp ⟨other, here⟩

theorem updateOk {change : Node → Node} (ok : g.update i change = .ok h) :
    i < g.size ∧ h = g.modify i change := by
  obtain ⟨node, found, done⟩ := bindOk.mp ok
  cases done
  exact ⟨nodeOk found, rfl⟩

theorem joinOk {fault : Error} (ok : (do
      let _ ← g.node i
      let _ ← g.node j
      if i = j then .error fault else .ok k) = .ok h) :
    i < g.size ∧ j < g.size ∧ i ≠ j ∧ h = k := by
  obtain ⟨tail, foundTail, ok⟩ := bindOk.mp ok
  obtain ⟨head, foundHead, ok⟩ := bindOk.mp ok
  split at ok
  · cases ok
  · rename_i apart
    cases ok
    exact ⟨nodeOk foundTail, nodeOk foundHead, apart, rfl⟩

theorem changeOfAttempt {e : Edit} (ok : g.attempt e = .ok h) : Change g h := by
  cases e with
  | deactivate i =>
    obtain ⟨_, rfl⟩ := updateOk ok
    exact .withInactive [i]
  | deactivateAll members =>
    obtain ⟨_, _, done⟩ := bindOk.mp ok
    cases done
    exact .withInactive members
  | push op =>
    cases ok
    exact .push op
  | addEdge source target blob =>
    obtain ⟨tail, head, apart, rfl⟩ := joinOk ok
    exact .link blob tail head apart
  | removeEdge source target =>
    obtain ⟨result, removed, rfl⟩ := mapOk.mp ok
    obtain ⟨tail, _, removed⟩ := bindOk.mp removed
    obtain ⟨head, _, done⟩ := bindOk.mp removed
    cases done
    exact .unlink source target
  | addOrdering first last =>
    obtain ⟨tail, head, apart, rfl⟩ := joinOk ok
    exact .precede tail head apart
  | replaceSubgraph members op =>
    obtain ⟨result, placed, rfl⟩ := mapOk.mp ok
    obtain ⟨_, _, done⟩ := bindOk.mp placed
    cases done
    exact .replaced members op
  | setOp i op =>
    obtain ⟨_, rfl⟩ := updateOk ok
    exact .setOp i op

theorem editCases (g : Graph) (e : Edit) : g.edit e = g ∨ Change g (g.edit e) := by
  unfold edit
  cases ok : g.attempt e with
  | error _ => exact Or.inl rfl
  | ok changed => exact Or.inr (changeOfAttempt ok)

end

end Graph

end OpNet
