import OpNet.Graph.Basic

/-!
Changing a graph. Each operation either does all it says or fails and leaves the graph as it was;
edges and orderings are written at both ends.
-/
namespace OpNet.Graph

def modify (g : Graph) (i : Nat) (change : Node → Node) : Graph :=
  { g with nodes := g.nodes.modify i change }

def link (g : Graph) (source target : Nat) (blob : String) : Graph :=
  (g.modify source (Node.withChild · ⟨target, blob⟩)).modify target
    (Node.withParent · ⟨source, blob⟩)

def precede (g : Graph) (first last : Nat) : Graph :=
  (g.modify first (Node.withLater · last)).modify last (Node.withEarlier · first)

def withInactive (g : Graph) (members : List Nat) : Graph :=
  members.foldl (fun g i => g.modify i Node.deactivated) g

def update (g : Graph) (i : Nat) (change : Node → Node) : Except Error Graph := do
  let _ ← g.node i
  return g.modify i change

def deactivate (g : Graph) (i : Nat) : Except Error Graph :=
  g.update i Node.deactivated

def deactivateAll (g : Graph) (members : List Nat) : Except Error Graph := do
  g.inRange members
  return g.withInactive members

def push (g : Graph) (op : Operator) : Graph :=
  { g with nodes := g.nodes.push { op } }

def setOp (g : Graph) (i : Nat) (op : Operator) : Except Error Graph :=
  g.update i ({ · with op })

def addEdge (g : Graph) (source target : Nat) (blob : String) : Except Error Graph := do
  let _ ← g.node source
  let _ ← g.node target
  if source = target then .error (Cause.invalidGraph (.selfEdge source blob))
  else .ok (g.link source target blob)

/-- Drops every label from `source` to `target`, and says whether there was one at either end. -/
def removeEdge (g : Graph) (source target : Nat) : Except Error (Graph × Bool) := do
  let tail ← g.node source
  let head ← g.node target
  let had := tail.children.nodes.contains target || head.parents.nodes.contains source
  let cut := g.modify source fun node => { node with children := node.children.without target }
  return (cut.modify target fun node => { node with parents := node.parents.without source }, had)

def addOrdering (g : Graph) (first last : Nat) : Except Error Graph := do
  let _ ← g.node first
  let _ ← g.node last
  if first = last then .error (Cause.invalidGraph (.selfOrdering first))
  else .ok (g.precede first last)

@[simp] theorem sizeModify (g : Graph) (i : Nat) (change : Node → Node) :
    (g.modify i change).size = g.size := by
  simp [modify, size]

theorem nodeModify (g : Graph) (i j : Nat) (change : Node → Node) :
    (g.modify i change).node? j = if i = j then (g.node? j).map change else g.node? j := by
  simp [modify, node?, Array.getElem?_modify]

@[simp] theorem sizePush (g : Graph) (op : Operator) : (g.push op).size = g.size + 1 := by
  simp [push, size]

theorem nodePush (g : Graph) (op : Operator) (j : Nat) :
    (g.push op).node? j = if j = g.size then some { op } else g.node? j := by
  simp only [push, node?, size, Array.getElem?_push]
  rfl

@[simp] theorem sizeLink (g : Graph) (source target : Nat) (blob : String) :
    (g.link source target blob).size = g.size := by
  simp [link]

@[simp] theorem sizePrecede (g : Graph) (first last : Nat) :
    (g.precede first last).size = g.size := by
  simp [precede]

@[simp] theorem sizeWithInactive (g : Graph) (members : List Nat) :
    (g.withInactive members).size = g.size := by
  unfold withInactive
  induction members generalizing g with
  | nil => rfl
  | cons i rest ih => simpa using ih (g.modify i Node.deactivated)

theorem someNodeIff {g : Graph} {i : Nat} : (∃ node, g.node? i = some node) ↔ i < g.size := by
  simp [node?, size, ← Option.isSome_iff_exists]

theorem memParentsLink {g : Graph} {source target i : Nat} {blob : String} {l : Link} :
    l ∈ (g.link source target blob).parents i ↔
      l ∈ g.parents i ∨ (i = target ∧ i < g.size ∧ l = ⟨source, blob⟩) := by
  rw [← someNodeIff]
  simp only [parents, link, nodeModify]
  cases g.node? i with
  | none => by_cases target = i <;> by_cases source = i <;> simp_all
  | some node =>
    by_cases ht : target = i <;> by_cases hs : source = i <;>
      simp [ht, hs, Node.withParent, Node.withChild, Ascending.memInsert, or_comm, eq_comm]

theorem memRunsBeforePrecede {g : Graph} {first last i j : Nat} :
    j ∈ (g.precede first last).runsBefore i ↔
      j ∈ g.runsBefore i ∨ (i = first ∧ i < g.size ∧ j = last) := by
  rw [← someNodeIff]
  simp only [runsBefore, precede, nodeModify]
  cases g.node? i with
  | none => by_cases last = i <;> by_cases first = i <;> simp_all
  | some node =>
    by_cases hl : last = i <;> by_cases hf : first = i <;>
      simp [hl, hf, Node.withEarlier, Node.withLater, Ascending.memInsert, or_comm, eq_comm]

theorem memRunsAfterPrecede {g : Graph} {first last i j : Nat} :
    j ∈ (g.precede first last).runsAfter i ↔
      j ∈ g.runsAfter i ∨ (i = last ∧ i < g.size ∧ j = first) := by
  rw [← someNodeIff]
  simp only [runsAfter, precede, nodeModify]
  cases g.node? i with
  | none => by_cases last = i <;> by_cases first = i <;> simp_all
  | some node =>
    by_cases hl : last = i <;> by_cases hf : first = i <;>
      simp [hl, hf, Node.withEarlier, Node.withLater, Ascending.memInsert, or_comm, eq_comm]

theorem memChildrenLink {g : Graph} {source target i : Nat} {blob : String} {l : Link} :
    l ∈ (g.link source target blob).children i ↔
      l ∈ g.children i ∨ (i = source ∧ i < g.size ∧ l = ⟨target, blob⟩) := by
  rw [← someNodeIff]
  simp only [children, link, nodeModify]
  cases g.node? i with
  | none => by_cases target = i <;> by_cases source = i <;> simp_all
  | some node =>
    by_cases ht : target = i <;> by_cases hs : source = i <;>
      simp [ht, hs, Node.withParent, Node.withChild, Ascending.memInsert, or_comm, eq_comm]

/-! A change that leaves a field alone leaves its view alone. -/

theorem elimModify {g : Graph} {i j : Nat} {change : Node → Node} {view : Node → α} {missing : α}
    (same : ∀ node, view (change node) = view node) :
    ((g.modify i change).node? j).elim missing view = (g.node? j).elim missing view := by
  rw [nodeModify]
  split
  · cases g.node? j <;> simp [same]
  · rfl

@[simp] theorem parentsPrecede (g : Graph) (first last i : Nat) :
    (g.precede first last).parents i = g.parents i := by
  simp only [parents, precede]
  rw [elimModify, elimModify] <;> exact fun _ => rfl

@[simp] theorem childrenPrecede (g : Graph) (first last i : Nat) :
    (g.precede first last).children i = g.children i := by
  simp only [children, precede]
  rw [elimModify, elimModify] <;> exact fun _ => rfl

@[simp] theorem runsAfterLink (g : Graph) (source target i : Nat) (blob : String) :
    (g.link source target blob).runsAfter i = g.runsAfter i := by
  simp only [runsAfter, link]
  rw [elimModify, elimModify] <;> exact fun _ => rfl

@[simp] theorem runsBeforeLink (g : Graph) (source target i : Nat) (blob : String) :
    (g.link source target blob).runsBefore i = g.runsBefore i := by
  simp only [runsBefore, link]
  rw [elimModify, elimModify] <;> exact fun _ => rfl

theorem isActiveElim (g : Graph) (i : Nat) :
    g.isActive i = (g.node? i).elim false Node.active := by
  unfold isActive
  cases g.node? i <;> rfl

@[simp] theorem isActiveLink (g : Graph) (source target i : Nat) (blob : String) :
    (g.link source target blob).isActive i = g.isActive i := by
  simp only [isActiveElim, link]
  rw [elimModify, elimModify] <;> exact fun _ => rfl

@[simp] theorem isActivePrecede (g : Graph) (first last i : Nat) :
    (g.precede first last).isActive i = g.isActive i := by
  simp only [isActiveElim, precede]
  rw [elimModify, elimModify] <;> exact fun _ => rfl

theorem isActiveWithInactive (g : Graph) (members : List Nat) (i : Nat) :
    (g.withInactive members).isActive i = (g.isActive i && !members.contains i) := by
  unfold withInactive
  induction members generalizing g with
  | nil => simp
  | cons m rest ih =>
    simp only [List.foldl_cons, ih, isActiveElim, nodeModify]
    by_cases same : m = i
    · subst same
      cases g.node? m <;> simp [Node.deactivated]
    · cases g.node? i <;> simp [same, Ne.symm same]

theorem isActivePush (g : Graph) (op : Operator) (i : Nat) :
    (g.push op).isActive i = (decide (i = g.size) || g.isActive i) := by
  simp only [isActive, nodePush]
  split
  · simp_all
  · simp_all

end OpNet.Graph
