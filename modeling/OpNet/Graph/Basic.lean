import OpNet.Net
import OpNet.Error

/-!
Operator graphs. A node holds an operator and four neighbour sets: blob edges from parents and to
children, each with the label of the blob that flows along it, and bare orderings, the nodes it
runs after and before. A node that a rewrite has replaced stays in place, inactive, so that an
index names the same node for as long as the graph lives.
-/
namespace OpNet

structure Link where
  node : Nat
  label : String
  deriving DecidableEq, Repr, Inhabited

namespace Link

/-- By node, then by label, so that the labels of one neighbour stand together. -/
instance : Ord Link := ⟨compareLex (compareOn Link.node) (compareOn Link.label)⟩

instance : Std.TransOrd Link :=
  inferInstanceAs (Std.TransCmp (compareLex (compareOn Link.node) (compareOn Link.label)))

instance : Std.LawfulEqOrd Link where
  compare_self := Std.ReflCmp.compare_self
  eq_of_compare {a b} same := by
    have both : (compare a.node b.node).then (compare a.label b.label) = .eq := same
    obtain ⟨node, label⟩ := Ordering.then_eq_eq.mp both
    cases a
    cases b
    simp_all

end Link

abbrev Links := List Link

namespace Links

def nodes (links : Links) : List Nat :=
  Ascending.ofList (links.map Link.node)

def labels (links : Links) (node : Nat) : List String :=
  (links.filter fun link => link.node = node).map Link.label

def without (links : Links) (node : Nat) : Links :=
  links.filter fun link => link.node ≠ node

theorem memNodes {links : Links} {node : Nat} :
    node ∈ links.nodes ↔ ∃ label, ⟨node, label⟩ ∈ links := by
  simp only [nodes, Ascending.memOfList, List.mem_map]
  constructor
  · intro h
    obtain ⟨⟨other, label⟩, mem, rfl⟩ := h
    exact ⟨label, mem⟩
  · intro h
    obtain ⟨label, mem⟩ := h
    exact ⟨⟨node, label⟩, mem, rfl⟩

theorem memLabels {links : Links} {node : Nat} {label : String} :
    label ∈ links.labels node ↔ ⟨node, label⟩ ∈ links := by
  simp only [labels, List.mem_map, List.mem_filter, decide_eq_true_eq]
  constructor
  · intro h
    obtain ⟨⟨other, name⟩, ⟨mem, rfl⟩, rfl⟩ := h
    exact mem
  · intro mem
    exact ⟨⟨node, label⟩, ⟨mem, rfl⟩, rfl⟩

theorem memWithout {links : Links} {node : Nat} {link : Link} :
    link ∈ links.without node ↔ link ∈ links ∧ link.node ≠ node := by
  simp [without]

end Links

structure Node where
  op : Operator
  parents : Links := []
  children : Links := []
  runsAfter : List Nat := []
  runsBefore : List Nat := []
  active : Bool := true
  deriving DecidableEq, Repr, Inhabited

namespace Node

def withParent (node : Node) (link : Link) : Node :=
  { node with parents := Ascending.insert link node.parents }

def withChild (node : Node) (link : Link) : Node :=
  { node with children := Ascending.insert link node.children }

def withEarlier (node : Node) (first : Nat) : Node :=
  { node with runsAfter := Ascending.insert first node.runsAfter }

def withLater (node : Node) (last : Nat) : Node :=
  { node with runsBefore := Ascending.insert last node.runsBefore }

def deactivated (node : Node) : Node :=
  { node with active := false }

def hasParentVia (node : Node) (parent : Nat) (blob : String) : Bool :=
  node.parents.contains ⟨parent, blob⟩

def hasChildVia (node : Node) (child : Nat) (blob : String) : Bool :=
  node.children.contains ⟨child, blob⟩

end Node

structure Graph where
  name : String := ""
  nodes : Array Node := #[]
  externalInputs : List String := []
  externalOutputs : List String := []
  deriving DecidableEq, Repr, Inhabited

namespace Graph

def size (g : Graph) : Nat := g.nodes.size

def node? (g : Graph) (i : Nat) : Option Node := g.nodes[i]?

def node (g : Graph) (i : Nat) : Except Error Node :=
  match g.node? i with
  | some node => .ok node
  | none => .error (Cause.nodeNotFound i)

def isActive (g : Graph) (i : Nat) : Bool := (g.node? i).any Node.active

def activeNodes (g : Graph) : List Nat := (List.range g.size).filter g.isActive

def activeCount (g : Graph) : Nat := g.activeNodes.length

section
variable (g : Graph) (i : Nat)

/-! Neighbour sets by index; a node out of range has none. -/

def inputs : List String := (g.node? i).elim [] fun node => node.op.inputs

def outputs : List String := (g.node? i).elim [] fun node => node.op.outputs

def parents : Links := (g.node? i).elim [] Node.parents

def children : Links := (g.node? i).elim [] Node.children

def runsAfter : List Nat := (g.node? i).elim [] Node.runsAfter

def runsBefore : List Nat := (g.node? i).elim [] Node.runsBefore

end

def inRange (g : Graph) (members : List Nat) : Except Error Unit :=
  match members.find? fun i => g.size ≤ i with
  | some bad => .error (Cause.nodeNotFound bad)
  | none => .ok ()

theorem noNodeIff {g : Graph} {i : Nat} : g.node? i = none ↔ g.size ≤ i := by
  simp [node?, size]

theorem activeInRange {g : Graph} {i : Nat} (active : g.isActive i = true) :
    i < g.size := by
  apply Nat.lt_of_not_le
  intro out
  simp [isActive, noNodeIff.mpr out] at active

theorem memActiveNodes {g : Graph} {i : Nat} : i ∈ g.activeNodes ↔ g.isActive i = true := by
  simp only [activeNodes, List.mem_filter, List.mem_range, and_iff_right_iff_imp]
  exact activeInRange

theorem inRangeIff {g : Graph} {members : List Nat} :
    g.inRange members = .ok () ↔ ∀ i ∈ members, i < g.size := by
  unfold inRange
  split
  · rename_i bad found
    have out := List.find?_some found
    have mem := List.mem_of_find?_eq_some found
    simp only [decide_eq_true_eq] at out
    simp only [reduceCtorEq, false_iff]
    intro all
    have := all bad mem
    omega
  · rename_i found
    simp only [true_iff]
    intro i mem
    have := List.find?_eq_none.mp found i mem
    simpa using this

end Graph

end OpNet
