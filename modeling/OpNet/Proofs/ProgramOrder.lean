import OpNet.Proofs.CanonicalOrder
import OpNet.Proofs.Reorder

/-!
Where every node waits for lesser ones only, the execution order is that of the indices. All that
the graph of a net records points forward, and goes on to do so when nodes are taken out. Main
statement: the net that is written then holds the operators that are left, in program order.
-/
namespace OpNet

namespace Graph
variable {g : Graph}

theorem sortedLeast {xs ys : List Nat} (sorted : xs.Pairwise (· < ·)) (perm : ys.Perm xs) :
    ¬ ys < xs := by
  induction xs generalizing ys with
  | nil => simp
  | cons x rest ih =>
    obtain ⟨least, tail⟩ := List.pairwise_cons.mp sorted
    cases ys with
    | nil => exact absurd perm.length_eq (by simp)
    | cons y others =>
      rw [List.cons_lt_cons_iff]
      rintro (less | ⟨rfl, less⟩)
      · rcases List.mem_cons.mp (perm.subset List.mem_cons_self) with rfl | mem
        · exact Nat.lt_irrefl _ less
        · exact Nat.lt_asymm less (least y mem)
      · exact ih tail (List.Perm.cons_inv perm) less

theorem placesRise {xs : List Nat} {r : Nat → Nat → Prop} {i j : Nat} (sorted : xs.Pairwise r)
    (hi : i ∈ xs) (hj : j ∈ xs) (apart : i ≠ j) (not : ¬ r j i) : xs.idxOf i < xs.idxOf j := by
  by_contra late
  have insideI := List.idxOf_lt_length_iff.mpr hi
  have insideJ := List.idxOf_lt_length_iff.mpr hj
  rcases Nat.lt_or_eq_of_le (Nat.le_of_not_lt late) with before | same
  · have related := List.pairwise_iff_getElem.mp sorted _ _ insideJ insideI before
    rw [List.getElem_idxOf, List.getElem_idxOf] at related
    exact not related
  · exact apart ((List.idxOf_inj hj).mp same).symm

theorem Mirrored.orderOfRising (mirrored : Mirrored g) (rising : ∀ i j, g.Waits i j → i < j) :
    g.topologicalOrder = .ok g.activeNodes := by
  have acyclic : Acyclic g.Waits := by
    intro i cycle
    have climbs : ∀ j, Relation.TransGen g.Waits i j → i < j := by
      intro j path
      induction path with
      | single edge => exact rising _ _ edge
      | tail _ edge ih => exact Nat.lt_trans ih (rising _ _ edge)
    exact Nat.lt_irrefl i (climbs i cycle)
  obtain ⟨order, ok⟩ := (topologicalOrderOkIff mirrored).mpr acyclic
  have sorted : g.activeNodes.Pairwise (· < ·) := List.pairwise_lt_range.filter _
  have execution : ExecutionOrder g g.activeNodes := {
    nodup := activeNodesNodup g
    active := fun i => memActiveNodes
    respects := fun i j waits => by
      have less := rising i j waits
      exact placesRise sorted (memActiveNodes.mpr waits.1) (memActiveNodes.mpr waits.2.1)
        (Nat.ne_of_lt less) (Nat.lt_asymm less) }
  have perm : order.Perm g.activeNodes := (topologicalOrderSound mirrored ok).1
  have same := (mirrored.leastOrder ok execution).resolve_right (sortedLeast sorted perm)
  rw [ok, same]

theorem deactivateOk {i : Nat} (inside : i < g.size) :
    g.deactivate i = .ok (g.withInactive [i]) := by
  obtain ⟨node, found⟩ := someNodeIff.mpr inside
  simp only [deactivate, update, Graph.node, found]
  rfl

theorem deactivateAllOk {members : List Nat} (inside : ∀ i ∈ members, i < g.size) :
    g.deactivateAll members = .ok (g.withInactive members) := by
  unfold deactivateAll
  rw [inRangeIff.mpr inside]
  rfl

theorem deactivateEachOk {members : List Nat} (inside : ∀ i ∈ members, i < g.size) :
    members.foldlM deactivate g = .ok (g.withInactive members) := by
  induction members generalizing g with
  | nil => rfl
  | cons i rest ih =>
    obtain ⟨here, later⟩ := List.forall_mem_cons.mp inside
    rw [List.foldlM_cons, deactivateOk here]
    exact ih (by simpa using later)

end Graph

namespace Net
open OpNet.Graph

def without (net : Net) (dropped : List Nat) : Net :=
  { net with ops := (net.ops.zipIdx.filter fun entry => entry.2 ∉ dropped).map Prod.fst }

theorem opsWithout (net : Net) (dropped : List Nat) : (net.without dropped).ops =
    net.pick ((List.range net.ops.length).filter fun i => i ∉ dropped) := by
  have all : ∀ ops : List Operator,
      (ops.zipIdx.filter fun entry => entry.2 ∉ dropped).map Prod.fst =
        ((List.range ops.length).filter fun i => i ∉ dropped).filterMap (ops[·]?) := by
    intro ops
    -- From the end, where a new operator does not move the others.
    induction ops using List.reverseRecOn with
    | nil => rfl
    | append_singleton front op ih =>
      have old : ∀ i ∈ (List.range front.length).filter fun i => i ∉ dropped,
          (front ++ [op])[i]? = front[i]? := fun i mem =>
        List.getElem?_append_left (List.mem_range.mp (List.mem_filter.mp mem).1)
      rw [List.length_append, List.length_singleton, List.range_succ, List.zipIdx_append,
        List.filter_append, List.filter_append, List.map_append, List.filterMap_append, ih,
        List.filterMap_congr old]
      by_cases gone : front.length ∈ dropped
      · simp [gone]
      · simp [gone]
  exact all net.ops

theorem withoutNone (net : Net) : net.without [] = net := by
  simp [without, List.zipIdx_map_fst]

end Net

namespace Graph
open Net

theorem activeRest (net : Net) (dropped : List Nat) :
    ((ofNet net).withInactive dropped).activeNodes =
      (List.range net.ops.length).filter fun i => i ∉ dropped := by
  rw [activeNodes, sizeWithInactive, sizeOfNet]
  apply List.filter_congr
  intro i mem
  simpa [isActiveWithInactive, isActiveOfNet] using fun _ => List.mem_range.mp mem

theorem activeNodesOfNet (net : Net) : (ofNet net).activeNodes = List.range net.ops.length :=
  (activeRest net []).trans (by simp)

theorem toNetOfRest (net : Net) (dropped : List Nat) :
    ((ofNet net).withInactive dropped).toNet = .ok (net.without dropped) := by
  have mirrored := (mirroredOfNet net).withInactive dropped
  -- Nodes that are taken out keep their neighbours, and these were made pointing forward.
  have order := mirrored.orderOfRising fun i j waits => by
    have before := waits.2.2
    simp only [Before, parentsWithInactive, runsAfterWithInactive] at before
    exact lessOfBefore before
  have same := sameNodesOfNet net
  obtain ⟨name, inputs, outputs⟩ := frameWithInactive (ofNet net) dropped
  have ops : (((ofNet net).withInactive dropped).activeNodes.filterMap fun i =>
      (((ofNet net).withInactive dropped).node? i).map Node.op) = (net.without dropped).ops := by
    simp only [opWithInactive, opOfNet, activeRest, opsWithout]
    rfl
  rw [toNetOfOrder order, ops, name, inputs, outputs, same.name, same.externalInputs,
    same.externalOutputs]
  rfl

theorem toNetOfNet (net : Net) : (ofNet net).toNet = .ok net :=
  (toNetOfRest net []).trans (congrArg Except.ok net.withoutNone)

end Graph

namespace Net
open OpNet.Graph

theorem exportKeepsOrder (net : Net) (dropped : List Nat)
    (inside : ∀ i ∈ dropped, i < net.ops.length) :
    (∃ g, (ofNet net).deactivateAll dropped = .ok g ∧
      dropped.foldlM deactivate (ofNet net) = .ok g ∧ g.toNet = .ok (net.without dropped)) ∧
    (ofNet net).toNet = .ok net := by
  have known : ∀ i ∈ dropped, i < (ofNet net).size := by simpa using inside
  exact ⟨⟨_, deactivateAllOk known, deactivateEachOk known, toNetOfRest net dropped⟩,
    toNetOfNet net⟩

theorem overwritingKeepsOrder :
    (∃ g, (ofNet overwriting).deactivateAll [2, 1, 2] = .ok g ∧
      [2, 1, 2].foldlM deactivate (ofNet overwriting) = .ok g ∧
      g.toNet = .ok (overwriting.without [2, 1, 2])) ∧
    (overwriting.without [2, 1, 2]).kinds = ["Conv", "Fill"] :=
  ⟨(exportKeepsOrder overwriting [2, 1, 2] (by decide)).1, rfl⟩

end Net

end OpNet
