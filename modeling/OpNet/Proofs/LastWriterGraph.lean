import OpNet.Proofs.SoundAdjacency
import Mathlib.Order.Bounds.Defs

/-!
The graph of a net as its dependencies alone determine it. Main statement: there is one graph over
the operators of a net in which a read depends on the last writer of its blob, and a write comes
after the last writer and after all who have read since then, with nothing else between any two
nodes; it is the graph that the scan builds.
-/
namespace OpNet

namespace Net
variable {net : Net} {blob : String} {i j : Nat}

theorem lastWriterIff :
    net.LastWriter blob j i ↔ IsGreatest {k | k < i ∧ net.Writes k blob} j := by
  constructor
  · intro last
    obtain ⟨less, writes, quiet⟩ := last
    refine ⟨⟨less, writes⟩, fun k known => Nat.le_of_not_lt fun later => ?_⟩
    exact quiet k later known.1 known.2
  · intro greatest
    obtain ⟨known, above⟩ := greatest
    refine ⟨known.1, known.2, fun k later bound writes => ?_⟩
    exact Nat.not_lt.mpr (above ⟨bound, writes⟩) later

/-- `i` writes a blob that `j` was the last to write, or has read with no write since. -/
def OverwritesAfter (net : Net) (i j : Nat) : Prop :=
  j < i ∧ ∃ blob, net.Writes i blob ∧
    ((net.Writes j blob ∧ ∀ k, j < k → k < i → ¬ net.Writes k blob) ∨
      (net.Reads j blob ∧ ∀ k, j ≤ k → k < i → ¬ net.Writes k blob))

theorem overwritesAfterIff : net.OverwritesAfter i j ↔
    ∃ blob, net.Writes i blob ∧ (net.LastWriter blob j i ∨ net.ReaderSince blob j i) := by
  constructor
  · intro after
    obtain ⟨less, blob, overwrites, first⟩ := after
    exact ⟨blob, overwrites, first.imp (⟨less, ·⟩) (⟨less, ·⟩)⟩
  · intro after
    obtain ⟨blob, overwrites, ⟨less, last⟩ | ⟨less, since⟩⟩ := after
    · exact ⟨less, blob, overwrites, Or.inl last⟩
    · exact ⟨less, blob, overwrites, Or.inr since⟩

end Net

namespace Graph
open Net

structure IsLastWriterGraph (net : Net) (g : Graph) : Prop extends Sound g where
  nodes : SameNodes (isolated net) g
  edges : ∀ i j blob, ⟨j, blob⟩ ∈ g.parents i ↔
    net.Reads i blob ∧ IsGreatest {k | k < i ∧ net.Writes k blob} j
  waits : ∀ i j, j ∈ g.runsAfter i ↔ net.OverwritesAfter i j

theorem lastWriterGraphOfNet (net : Net) : IsLastWriterGraph net (ofNet net) where
  toSound := soundOrigin (.ofNet net)
  nodes := sameNodesOfNet net
  edges i j blob := by rw [memParentsOfNet, lastWriterIff]
  waits i j := by rw [memRunsAfterOfNet, overwritesAfterIff]

theorem IsLastWriterGraph.unique {net : Net} {g h : Graph} (left : IsLastWriterGraph net g)
    (right : IsLastWriterGraph net h) : h = g := by
  have edges : ∀ i l, l ∈ h.parents i ↔ l ∈ g.parents i := fun i l =>
    (right.edges i l.node l.label).trans (left.edges i l.node l.label).symm
  have waits : ∀ i j, j ∈ h.runsAfter i ↔ j ∈ g.runsAfter i := fun i j =>
    (right.waits i j).trans (left.waits i j).symm
  apply (left.nodes.symm.trans right.nodes).ext
  · exact fun i => (right.tidy.parents i).ext (left.tidy.parents i) (edges i)
  · refine fun i => (right.tidy.children i).ext (left.tidy.children i) fun l => ?_
    exact (right.links i l.node l.label).trans ((edges l.node _).trans (left.links i _ _).symm)
  · exact fun i => (right.after i).ext (left.after i) (waits i)
  · refine fun i => (right.before i).ext (left.before i) fun j => ?_
    exact (right.orderings i j).trans ((waits j i).trans (left.orderings i j).symm)

theorem lastWriterGraphIff (net : Net) (g : Graph) : IsLastWriterGraph net g ↔ g = ofNet net := by
  constructor
  · intro known
    exact (lastWriterGraphOfNet net).unique known
  · intro same
    exact same ▸ lastWriterGraphOfNet net

end Graph

end OpNet
