import OpNet.Proofs.Standing

/-!
Replacing sets of operators by their boundaries. Main statement: whatever the sets are, if the
graph that is left can be exported at all, the exported net computes the external outputs of the
original. Two outside values of one blob that a set would need at once leave a cycle.
-/
namespace OpNet

universe u

namespace Graph
variable {g : Graph} {members : List Nat} {i : Nat} {blob : String}

theorem suppliedIff : g.suppliedWithin members i blob = true ↔
    ∃ w ∈ members, ⟨w, blob⟩ ∈ g.parents i := by
  simp only [suppliedWithin, List.any_eq_true, Bool.and_eq_true, decide_eq_true_eq,
    List.contains_iff_mem]
  constructor
  · intro h
    obtain ⟨⟨w, label⟩, edge, rfl, mem⟩ := h
    exact ⟨w, mem, edge⟩
  · intro h
    obtain ⟨w, mem, edge⟩ := h
    exact ⟨⟨w, blob⟩, edge, rfl, mem⟩

theorem readOutsideIff : g.readOutside members i blob = true ↔
    ∃ m, m ∉ members ∧ g.isActive m = true ∧ ⟨m, blob⟩ ∈ g.children i := by
  simp only [readOutside, List.any_eq_true, Bool.and_eq_true, decide_eq_true_eq,
    Bool.not_eq_true', List.contains_eq_mem, decide_eq_false_iff_not]
  constructor
  · intro h
    obtain ⟨⟨m, label⟩, edge, ⟨rfl, out⟩, active⟩ := h
    exact ⟨m, out, active, edge⟩
  · intro h
    obtain ⟨m, out, active, edge⟩ := h
    exact ⟨⟨m, blob⟩, edge, ⟨rfl, out⟩, active⟩

theorem memEntering : blob ∈ g.entering members ↔
    ∃ m ∈ members, blob ∈ g.inputs m ∧ ∀ w ∈ members, ⟨w, blob⟩ ∉ g.parents m := by
  simp only [entering, firstSeen, List.mem_eraseDups, List.mem_flatMap, List.mem_filter,
    Bool.not_eq_true', ← Bool.not_eq_true, suppliedIff, not_exists, not_and]

theorem memLeaving : blob ∈ g.leaving members ↔
    ∃ w ∈ members, blob ∈ g.outputs w ∧ (blob ∈ g.externalOutputs ∨
      ∃ m, m ∉ members ∧ g.isActive m = true ∧ ⟨m, blob⟩ ∈ g.children w) := by
  simp only [leaving, firstSeen, List.mem_eraseDups, List.mem_flatMap, List.mem_filter,
    Bool.or_eq_true, readOutsideIff, List.contains_iff_mem, or_comm]

def boundaryOperator (g : Graph) (item : List Nat × Operator) : Except Error Operator := do
  let inputs ← g.subgraphInputs item.1
  let outputs ← g.subgraphOutputs item.1
  return { item.2 with inputs, outputs }

theorem boundaryOperatorOk {g : Graph} {item : List Nat × Operator}
    (inside : ∀ i ∈ item.1, i < g.size) :
    g.boundaryOperator item =
      .ok { item.2 with inputs := g.entering item.1, outputs := g.leaving item.1 } := by
  simp only [boundaryOperator, subgraphInputs, subgraphOutputs, inRangeIff.mpr inside, bind,
    Except.bind, pure, Except.pure]

end Graph

def inNetOrder (standing : List (Nat × List Nat)) : List (Nat × List Nat) :=
  standing.map fun entry => (entry.1, Ascending.ofList entry.2)

namespace Net
open OpNet.Graph

namespace Collapsed
variable {net : Net} {groups : List Group} {g : Graph} {i w m : Nat} {blob : String}
  {members run : List Nat}

theorem nodeAt (c : Collapsed net groups g) (bound : i < net.ops.length) :
    ∃ node, g.node? i = some node ∧ net.ops[i]? = some node.op := by
  have here : net.ops[i]? = some net.ops[i] := List.getElem?_eq_getElem bound
  have op := c.op i
  rw [List.getElem?_append_left bound, here, Option.map_eq_some_iff] at op
  obtain ⟨node, found, same⟩ := op
  exact ⟨node, found, same ▸ here⟩

theorem inputsIff (c : Collapsed net groups g) (bound : i < net.ops.length) :
    blob ∈ g.inputs i ↔ net.Reads i blob := by
  obtain ⟨node, found, here⟩ := c.nodeAt bound
  rw [readsIff here]
  simp [Graph.inputs, found]

theorem outputsIff (c : Collapsed net groups g) (bound : i < net.ops.length) :
    blob ∈ g.outputs i ↔ net.Writes i blob := by
  obtain ⟨node, found, here⟩ := c.nodeAt bound
  rw [writesIff here]
  simp [Graph.outputs, found]

section
variable (separate : net.Separate (groups.map Group.members ++ [run]))
include separate

theorem linkWithin (c : Collapsed net groups g) (hw : w ∈ run) (hm : m ∈ run) :
    ⟨w, blob⟩ ∈ g.parents m ↔ net.Reads m blob ∧ net.LastWriter blob w m := by
  have activeW := activeMember separate c hw
  have activeM := activeMember separate c hm
  have homeW := own separate (Or.inr hw)
  have homeM := own separate (Or.inr hm)
  constructor
  · intro edge
    obtain ⟨i, j, hi, hj, reads, last⟩ := c.linkOrigin activeW activeM edge
    have ownI := own separate (Or.inl (hi ▸ hw))
    have ownJ := own separate (Or.inl (hj ▸ hm))
    rw [ownI] at hi
    rw [ownJ] at hj
    subst hi hj
    exact ⟨reads, last⟩
  · intro ⟨reads, last⟩
    have less := last.1
    exact (c.links blob w m activeW activeM).mpr
      ⟨by omega, w, m, homeW, homeM, memParentsOfNet.mpr ⟨reads, last⟩⟩

theorem linkOut (c : Collapsed net groups g) (hw : w ∈ run) (out : m ∉ run)
    (reads : net.Reads m blob) (last : net.LastWriter blob w m) :
    ∃ x, x ∉ run ∧ g.isActive x = true ∧ ⟨x, blob⟩ ∈ g.children w := by
  have activeW := activeMember separate c hw
  have activeX := c.activeHome reads.inRange
  have outside : net.home (groups.map Group.members) m ∉ run := fun mem =>
    out (own separate (Or.inl mem) ▸ mem)
  refine ⟨_, outside, activeX, (c.mirrored.links w _ blob).mpr ?_⟩
  refine (c.links blob w _ activeW activeX).mpr ⟨fun same => outside (same ▸ hw), w, m, ?_, rfl, ?_⟩
  · exact own separate (Or.inr hw)
  · exact memParentsOfNet.mpr ⟨reads, last⟩

theorem enteringIff (c : Collapsed net groups g) (same : ∀ i, i ∈ members ↔ i ∈ run) :
    blob ∈ g.entering members ↔
      ∃ m ∈ run, net.Reads m blob ∧ ∀ w ∈ run, ¬ net.LastWriter blob w m := by
  rw [memEntering]
  constructor
  · intro h
    obtain ⟨m, mem, listed, none⟩ := h
    have here := (same m).mp mem
    have reads := (c.inputsIff (bound separate here)).mp listed
    refine ⟨m, here, reads, fun w member last => none w ((same w).mpr member) ?_⟩
    exact (linkWithin separate c member here).mpr ⟨reads, last⟩
  · intro h
    obtain ⟨m, here, reads, none⟩ := h
    have read := (c.inputsIff (bound separate here)).mpr reads
    refine ⟨m, (same m).mpr here, read, fun w member edge => ?_⟩
    have there := (same w).mp member
    exact none w there ((linkWithin separate c there here).mp edge).2

theorem coversBoundary (c : Collapsed net groups g) (same : ∀ i, i ∈ members ↔ i ∈ run)
    (label : Operator) :
    net.Covers
      ⟨{ label with inputs := g.entering members, outputs := g.leaving members }, run⟩ where
  entering m mem blob reads none := (enteringIff separate c same).mpr ⟨m, mem, reads, none⟩
  needed _ listed := (enteringIff separate c same).mp listed
  leaving w mem m blob out reads last := by
    obtain ⟨x, outside, active, edge⟩ := linkOut separate c mem out reads last
    refine memLeaving.mpr ⟨w, (same w).mpr mem, ?_, Or.inr ⟨x, ?_, active, edge⟩⟩
    · exact (c.outputsIff (bound separate mem)).mpr last.2.1
    · rwa [same]
  kept w mem blob writes wanted :=
    memLeaving.mpr ⟨w, (same w).mpr mem, (c.outputsIff (bound separate mem)).mpr writes,
      Or.inl (c.externalOutputs ▸ wanted)⟩
  written blob listed := by
    obtain ⟨w, mem, writes, _⟩ := memLeaving.mp listed
    have here := (same w).mp mem
    exact ⟨w, here, (c.outputsIff (bound separate here)).mp writes⟩

end

end Collapsed

theorem separateItems {net : Net} {items : List (List Nat × Operator)}
    (inRange : ∀ item ∈ items, ∀ i ∈ item.1, i < net.ops.length)
    (disjoint : items.Pairwise fun a b => ∀ i ∈ a.1, i ∉ b.1) :
    net.Separate (items.map fun item => Ascending.ofList item.1) where
  inRange := by
    intro set mem i here
    obtain ⟨item, there, rfl⟩ := List.mem_map.mp mem
    exact inRange item there i (Ascending.memOfList.mp here)
  apart := by
    refine List.pairwise_map.mpr (disjoint.imp fun apart i inA inB => ?_)
    exact apart i (Ascending.memOfList.mp inA) (Ascending.memOfList.mp inB)
  ascending := by
    intro set mem
    obtain ⟨item, _, rfl⟩ := List.mem_map.mp mem
    exact (Ascending.sortedOfList item.1).imp Nat.compare_eq_lt.mp

theorem boundariesRunAlike {V : Type u} (meaning : Meaning V) (blank env : Env V) (net : Net)
    (items : List (List Nat × Operator))
    (inRange : ∀ item ∈ items, ∀ i ∈ item.1, i < net.ops.length)
    (disjoint : items.Pairwise fun a b => ∀ i ∈ a.1, i ∉ b.1) :
    ∃ g standing,
      (ofNet net).replaceEach Prod.fst boundaryOperator items = .ok (g, standing) ∧
      ∀ out, g.toNet = .ok out →
        ∃ order, g.topologicalOrder = .ok order ∧ order.length = out.ops.length ∧
          ∀ blob ∈ net.externalOutputs,
            runStanding meaning blank net (inNetOrder standing) (order.zip out.ops) env blob =
              runOps meaning net.ops env blob := by
  have same : ∀ item : List Nat × Operator, ∀ i, i ∈ item.1 ↔ i ∈ Ascending.ofList item.1 :=
    fun item i => Ascending.memOfList.symm
  have next : ∀ item ∈ items, ∀ groups g, Collapsed net groups g →
      net.Separate (groups.map Group.members ++ [Ascending.ofList item.1]) →
      ∃ op, g.boundaryOperator item = .ok op ∧ net.Covers ⟨op, Ascending.ofList item.1⟩ := by
    intro item _ groups g c separate
    refine ⟨_, boundaryOperatorOk fun i mem => ?_,
      Collapsed.coversBoundary separate c (same item) item.2⟩
    exact activeInRange (Collapsed.activeMember separate c ((same item i).mp mem))
  obtain ⟨groups, g, standing, ok, sets, collapsed, stands⟩ :=
    (collapsedOfNet net).replaceEach boundaryOperator items (fun item _ => same item)
      (separateItems inRange disjoint) next
  refine ⟨g, standing, ok, fun out exported => ?_⟩
  refine Collapsed.exportRunsAlike meaning blank env collapsed ?_ exported
  have moved := stands.map Ascending.ofList
  rw [List.map_map, sizeOfNet] at moved
  rwa [List.nil_append, sets]

def takingTurns : Net where
  ops :=
    [{ kind := "Conv", inputs := ["X"], outputs := ["C"] },
     { kind := "Scale", inputs := ["X"], outputs := ["X"] },
     { kind := "Relu", inputs := ["C"], outputs := ["R"] },
     { kind := "Sum", inputs := ["X", "X"], outputs := ["S"] }]
  externalOutputs := ["R", "S"]

theorem takingTurnsRunsAlike :
    let meaning : Meaning Nat := fun op values k => values.foldl (· + ·) (op.inputs.length + k)
    let items : List (List Nat × Operator) :=
      [([2, 0], { kind := "First" }), ([1, 3], { kind := "Second" })]
    ∃ g standing out order,
      (ofNet takingTurns).replaceEach Prod.fst boundaryOperator items = .ok (g, standing) ∧
      g.toNet = .ok out ∧ g.topologicalOrder = .ok order ∧ order.length = out.ops.length ∧
        ∀ blob ∈ ["R", "S"],
          runStanding meaning (fun _ => 0) takingTurns (inNetOrder standing) (order.zip out.ops)
            (fun _ => 1) blob = runOps meaning takingTurns.ops (fun _ => 1) blob := by
  intro meaning items
  obtain ⟨g, standing, ok, all⟩ := boundariesRunAlike meaning (fun _ => 0) (fun _ => 1) takingTurns
    items (by decide) (by decide)
  have exported : ∃ out, ((ofNet takingTurns).replaceEach Prod.fst boundaryOperator items >>=
      fun result => result.1.toNet) = .ok out := ⟨_, rfl⟩
  rw [ok] at exported
  obtain ⟨out, written⟩ := exported
  obtain ⟨order, found, length, alike⟩ := all out written
  exact ⟨g, standing, out, order, ok, written, found, length, alike⟩

end Net

end OpNet
