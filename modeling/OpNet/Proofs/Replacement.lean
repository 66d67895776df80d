import OpNet.Graph.Boundary
import OpNet.Proofs.Adjacency

/-!
What replacing a set of nodes by one does. Main statements: the new node gets exactly the edges and
orderings that members had with active nodes outside, as far as its operator reads or writes the
blob; the members become inactive; nothing else changes.
-/
namespace OpNet.Graph

theorem sameNodesAttach (g : Graph) (members : List Nat) (op : Operator) (i : Nat)
    (target : Graph) : SameNodes target (g.attach members op i target) :=
  (((SameNodes.foldl (fun h (link : Link) => .link h link.node i link.label) _ target).trans
    (SameNodes.foldl (fun h (link : Link) => .link h i link.node link.label) _ _)).trans
    (SameNodes.foldl (fun h first => .precede h first i) _ _)).trans
    (SameNodes.foldl (fun h last => .precede h i last) _ _)

section
variable {g : Graph} {members : List Nat} {i : Nat} {l : Link}

theorem isOutsideIff : g.isOutside members i = true ↔ i ∉ members ∧ g.isActive i = true := by
  simp [isOutside]

theorem memIncoming : l ∈ g.incoming members ↔
    g.isOutside members l.node = true ∧ ∃ m ∈ members, l ∈ g.parents m := by
  simp only [incoming, List.mem_flatMap, List.mem_filter]
  exact ⟨fun ⟨m, mem, here, out⟩ => ⟨out, m, mem, here⟩,
    fun ⟨out, m, mem, here⟩ => ⟨m, mem, here, out⟩⟩

theorem memOutgoing : l ∈ g.outgoing members ↔
    g.isOutside members l.node = true ∧ ∃ m ∈ members, l ∈ g.children m := by
  simp only [outgoing, List.mem_flatMap, List.mem_filter]
  exact ⟨fun ⟨m, mem, here, out⟩ => ⟨out, m, mem, here⟩,
    fun ⟨out, m, mem, here⟩ => ⟨m, mem, here, out⟩⟩

theorem memEarlier : i ∈ g.earlier members ↔
    g.isOutside members i = true ∧ ∃ m ∈ members, i ∈ g.runsAfter m := by
  simp only [earlier, List.mem_flatMap, List.mem_filter]
  exact ⟨fun ⟨m, mem, here, out⟩ => ⟨out, m, mem, here⟩,
    fun ⟨out, m, mem, here⟩ => ⟨m, mem, here, out⟩⟩

theorem memLater : i ∈ g.later members ↔
    g.isOutside members i = true ∧ ∃ m ∈ members, i ∈ g.runsBefore m := by
  simp only [later, List.mem_flatMap, List.mem_filter]
  exact ⟨fun ⟨m, mem, here, out⟩ => ⟨out, m, mem, here⟩,
    fun ⟨out, m, mem, here⟩ => ⟨m, mem, here, out⟩⟩

theorem outsideInRange (outside : g.isOutside members i = true) : i < g.size :=
  activeInRange (isOutsideIff.mp outside).2

end

def replaced (g : Graph) (members : List Nat) (op : Operator) : Graph :=
  g.attach members op g.size ((g.withInactive members).push op)

theorem replaceSubgraphOk {g : Graph} {members : List Nat} (inside : ∀ i ∈ members, i < g.size)
    (op : Operator) : g.replaceSubgraph members op = .ok (g.replaced members op, g.size) := by
  unfold replaceSubgraph
  rw [inRangeIff.mpr inside]
  rfl

section
variable (g : Graph) (members : List Nat) (op : Operator)

theorem sizeReplaced : (g.replaced members op).size = g.size + 1 := by
  rw [replaced, (sameNodesAttach ..).size, sizePush, sizeWithInactive]

theorem isActiveReplaced (i : Nat) : (g.replaced members op).isActive i =
    (decide (i = g.size) || (g.isActive i && !members.contains i)) := by
  rw [replaced, (sameNodesAttach ..).active, isActivePush, sizeWithInactive, isActiveWithInactive]

theorem opWithInactive (i : Nat) :
    ((g.withInactive members).node? i).map Node.op = (g.node? i).map Node.op := by
  unfold withInactive
  induction members generalizing g with
  | nil => rfl
  | cons m rest ih =>
    rw [List.foldl_cons, ih, nodeModify]
    cases g.node? i <;> split <;> simp [Node.deactivated]

theorem opReplaced (i : Nat) : ((g.replaced members op).node? i).map Node.op =
    if i = g.size then some op else (g.node? i).map Node.op := by
  rw [replaced, (sameNodesAttach ..).op, nodePush, sizeWithInactive]
  split
  · rfl
  · exact opWithInactive g members i

theorem frameWithInactive : (g.withInactive members).name = g.name ∧
    (g.withInactive members).externalInputs = g.externalInputs ∧
    (g.withInactive members).externalOutputs = g.externalOutputs := by
  unfold withInactive
  induction members generalizing g with
  | nil => exact ⟨rfl, rfl, rfl⟩
  | cons m rest ih => exact ih (g.modify m Node.deactivated)

theorem frameReplaced : (g.replaced members op).name = g.name ∧
    (g.replaced members op).externalInputs = g.externalInputs ∧
    (g.replaced members op).externalOutputs = g.externalOutputs := by
  have same := sameNodesAttach g members op g.size ((g.withInactive members).push op)
  have frame := frameWithInactive g members
  exact ⟨same.name.trans frame.1, same.externalInputs.trans frame.2.1,
    same.externalOutputs.trans frame.2.2⟩

end

section
variable {g : Graph} {members : List Nat} {op : Operator} {i j : Nat} {l : Link}

theorem memParentsReplaced : l ∈ (g.replaced members op).parents i ↔ l ∈ g.parents i ∨
    (i = g.size ∧ l ∈ g.incoming members ∧ l.label ∈ op.inputs) ∨
    (l.node = g.size ∧ ⟨i, l.label⟩ ∈ g.outgoing members ∧ l.label ∈ op.outputs) := by
  unfold replaced attach
  rw [parentsPrecedeAll, parentsPrecedeAll, memParentsLinkAll, memParentsLinkAll, sizeLinkAll]
  simp only [parentsPush, parentsWithInactive, sizePush, sizeWithInactive, List.mem_filter,
    Operator.readsIff, Operator.writesIff, or_assoc]
  refine or_congr_right (or_congr ?_ ?_)
  · constructor
    · intro h
      obtain ⟨_, x, listed, same, rfl⟩ := h
      exact ⟨same.symm, listed⟩
    · intro h
      obtain ⟨rfl, listed⟩ := h
      exact ⟨Nat.lt_succ_self _, l, listed, rfl, rfl⟩
  · constructor
    · intro h
      obtain ⟨_, x, listed, rfl, rfl⟩ := h
      exact ⟨rfl, listed⟩
    · intro h
      obtain ⟨new, listed⟩ := h
      have inside : i < g.size := outsideInRange (memOutgoing.mp listed.1).1
      exact ⟨by omega, ⟨i, l.label⟩, listed, rfl, by rw [← new]⟩

theorem memRunsAfterReplaced : j ∈ (g.replaced members op).runsAfter i ↔ j ∈ g.runsAfter i ∨
    (i = g.size ∧ j ∈ g.earlier members) ∨ (j = g.size ∧ i ∈ g.later members) := by
  unfold replaced attach
  rw [memRunsAfterPrecedeAll, memRunsAfterPrecedeAll, sizePrecedeAll, sizeLinkAll, sizeLinkAll,
    runsAfterLinkAll, runsAfterLinkAll]
  simp only [runsAfterPush, runsAfterWithInactive, sizePush, sizeWithInactive, or_assoc]
  refine or_congr_right (or_congr ?_ ?_)
  · constructor
    · intro h
      obtain ⟨_, x, listed, same, rfl⟩ := h
      exact ⟨same.symm, listed⟩
    · intro h
      obtain ⟨rfl, listed⟩ := h
      exact ⟨Nat.lt_succ_self _, j, listed, rfl, rfl⟩
  · constructor
    · intro h
      obtain ⟨_, x, listed, rfl, rfl⟩ := h
      exact ⟨rfl, listed⟩
    · intro h
      obtain ⟨new, listed⟩ := h
      have inside := outsideInRange (memLater.mp listed).1
      exact ⟨by omega, i, listed, rfl, new⟩

theorem Mirrored.replaced (mirrored : Mirrored g) (members : List Nat) (op : Operator) :
    Mirrored (g.replaced members op) := by
  have outside : ∀ {i}, g.isOutside members i = true → i < g.size + 1 := fun out => by
    have := outsideInRange out
    omega
  have start := (mirrored.withInactive members).push op
  refine (((start.linkAll fun l mem => ?_).linkAll fun l mem => ?_).precedeAll
    fun first mem => ?_).precedeAll fun last mem => ?_
  all_goals
    simp only [sizePrecedeAll, sizeLinkAll, sizePush, sizeWithInactive]
  · exact ⟨outside (memIncoming.mp (List.mem_filter.mp mem).1).1, Nat.lt_succ_self _⟩
  · exact ⟨Nat.lt_succ_self _, outside (memOutgoing.mp (List.mem_filter.mp mem).1).1⟩
  · exact ⟨outside (memEarlier.mp mem).1, Nat.lt_succ_self _⟩
  · exact ⟨Nat.lt_succ_self _, outside (memLater.mp mem).1⟩

end

end OpNet.Graph
