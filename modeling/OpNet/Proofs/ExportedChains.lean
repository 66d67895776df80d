import OpNet.Proofs.ExportedEdges
import OpNet.Proofs.UniqueChain

/-!
Chains of an exported net. What a fusion asks about nodes is the same of the nodes that were
exported and of their places in the net, so that the two have the same chains.
-/
namespace OpNet

namespace Graph

structure Embeds (g h : Graph) (live : Nat → Prop) (rename : Nat → Nat) : Prop where
  injective : ∀ i j, live i → live j → rename i = rename j → i = j
  op : ∀ i, live i → (h.node? (rename i)).map Node.op = (g.node? i).map Node.op
  links : ∀ i j blob, live i → live j →
    (⟨rename i, blob⟩ ∈ h.parents (rename j) ↔ ⟨i, blob⟩ ∈ g.parents j)

namespace Embeds
variable {g h : Graph} {live : Nat → Prop} {rename : Nat → Nat} {chain : List Nat} {i : Nat}

theorem outputs (embeds : Embeds g h live rename) (there : live i) :
    h.outputs (rename i) = g.outputs i := by
  have op := embeds.op i there
  unfold Graph.outputs
  cases here : g.node? i <;> cases other : h.node? (rename i) <;> simp_all

theorem inputs (embeds : Embeds g h live rename) (there : live i) :
    h.inputs (rename i) = g.inputs i := by
  have op := embeds.op i there
  unfold Graph.inputs
  cases here : g.node? i <;> cases other : h.node? (rename i) <;> simp_all

theorem memMap (embeds : Embeds g h live rename) (all : ∀ j ∈ chain, live j) (there : live i) :
    rename i ∈ chain.map rename ↔ i ∈ chain := by
  constructor
  · intro mem
    obtain ⟨j, member, same⟩ := List.mem_map.mp mem
    rwa [embeds.injective i j there (all j member) same.symm]
  · exact List.mem_map_of_mem

theorem mapInjective {other : List Nat} (embeds : Embeds g h live rename)
    (all : ∀ j ∈ chain, live j) (others : ∀ j ∈ other, live j)
    (same : chain.map rename = other.map rename) : chain = other := by
  induction chain generalizing other with
  | nil => exact (List.map_eq_nil_iff.mp same.symm).symm
  | cons i rest ih =>
    obtain ⟨j, tail, rfl, first, later⟩ := List.map_eq_cons_iff.mp same.symm
    obtain ⟨hereI, laterI⟩ := List.forall_mem_cons.mp all
    obtain ⟨hereJ, laterJ⟩ := List.forall_mem_cons.mp others
    rw [embeds.injective i j hereI hereJ first.symm, ih laterI laterJ later.symm]

end Embeds

/-- `h` is `g` without its inactive nodes and with every active one renamed. -/
structure Renames (g h : Graph) (rename : Nat → Nat) : Prop where
  embeds : Embeds g h (fun i => g.isActive i = true) rename
  onto : ∀ y, h.isActive y = true ↔ ∃ x, g.isActive x = true ∧ rename x = y
  externalOutputs : h.externalOutputs = g.externalOutputs
  left : g.Mirrored
  right : h.Mirrored

theorem Renames.pull {g h : Graph} {rename : Nat → Nat} (renames : Renames g h rename)
    {ys : List Nat} (active : ∀ y ∈ ys, h.isActive y = true) :
    ∃ xs : List Nat, xs.map rename = ys ∧ ∀ x ∈ xs, g.isActive x = true := by
  induction ys with
  | nil => exact ⟨[], rfl, by simp⟩
  | cons y rest ih =>
    obtain ⟨here, later⟩ := List.forall_mem_cons.mp active
    obtain ⟨x, alive, rfl⟩ := (renames.onto y).mp here
    obtain ⟨xs, rfl, all⟩ := ih later
    exact ⟨x :: xs, rfl, List.forall_mem_cons.mpr ⟨alive, all⟩⟩

end Graph

namespace Fusion
open OpNet.Graph Search Net

section
variable {f : Fusion} {g h : Graph} {live : Nat → Prop} {rename : Nat → Nat} {chain : List Nat}
  {i w : Nat}

theorem asksIff : f.accept g chain i = true ↔
    (∃ op, (g.node? i).map Node.op = some op ∧ f.pattern[chain.length]? = some op.kind) ∧
      ∀ previous, chain.getLast? = some previous → ∃ blob, ⟨previous, blob⟩ ∈ g.parents i := by
  rw [acceptIff]
  constructor
  · rintro ⟨node, found, kind, linked⟩
    refine ⟨⟨node.op, by simp [found], kind⟩, fun previous last => ?_⟩
    simpa [Graph.parents, found] using Links.memNodes.mp (linked previous last)
  · rintro ⟨⟨op, here, kind⟩, linked⟩
    obtain ⟨node, found, rfl⟩ := Option.map_eq_some_iff.mp here
    refine ⟨node, found, kind, fun previous last => Links.memNodes.mpr ?_⟩
    simpa [Graph.parents, found] using linked previous last

theorem privateIff (mirrored : g.Mirrored) : isPrivate g chain w = true ↔
    w < g.size ∧ (∀ i blob, g.isActive i = true → ⟨w, blob⟩ ∈ g.parents i → i ∈ chain) ∧
      ∀ blob ∈ g.outputs w, blob ∉ g.externalOutputs := by
  rw [← someNodeIff]
  cases found : g.node? w with
  | none => simp [isPrivate, found]
  | some node =>
    have children : g.children w = node.children := by simp [Graph.children, found]
    simp only [isPrivate, found, Option.any_some, Graph.outputs, Option.elim_some,
      Option.some.injEq, exists_eq', true_and, Bool.and_eq_true, List.all_eq_true, Bool.or_eq_true,
      Bool.not_eq_true', List.contains_eq_mem, decide_eq_true_eq, decide_eq_false_iff_not]
    refine and_congr_left fun _ => ⟨fun all i blob active edge => ?_, fun all i mem => ?_⟩
    · have child := (mirrored.links w i blob).mpr edge
      rw [children] at child
      refine (all i (Links.memNodes.mpr ⟨blob, child⟩)).resolve_right fun inactive => ?_
      rw [active] at inactive
      cases inactive
    · obtain ⟨blob, child⟩ := Links.memNodes.mp mem
      rw [← children, mirrored.links] at child
      cases active : g.isActive i with
      | true => exact Or.inl (all i blob active child)
      | false => exact Or.inr rfl

theorem acceptEmbeds (embeds : Embeds g h live rename) (all : ∀ j ∈ chain, live j)
    (there : live i) : f.accept h (chain.map rename) (rename i) = f.accept g chain i := by
  rw [Bool.eq_iff_iff, asksIff, asksIff, embeds.op i there, List.length_map, List.getLast?_map]
  refine and_congr_right fun _ => ?_
  cases found : chain.getLast? with
  | none => simp
  | some last =>
    have member := all last (List.mem_of_getLast? found)
    simp [embeds.links last i _ member there]

def Steps (f : Fusion) (g : Graph) (chain : List Nat) : Prop :=
  ∀ k i, chain[k]? = some i → f.accept g (chain.take k) i = true

theorem stepsEmbed (embeds : Embeds g h live rename) (all : ∀ j ∈ chain, live j) :
    f.Steps h (chain.map rename) ↔ f.Steps g chain := by
  have each : ∀ k i, chain[k]? = some i →
      f.accept h ((chain.map rename).take k) (rename i) = f.accept g (chain.take k) i := by
    intro k i here
    rw [← List.map_take]
    exact acceptEmbeds embeds (fun j mem => all j (List.mem_of_mem_take mem))
      (all i (List.mem_of_getElem? here))
  constructor
  · intro steps k i here
    rw [← each k i here]
    exact steps k (rename i) (by rw [List.getElem?_map, here]; rfl)
  · intro steps k y there
    rw [List.getElem?_map, Option.map_eq_some_iff] at there
    obtain ⟨i, here, rfl⟩ := there
    rw [each k i here]
    exact steps k i here

theorem kindsOfSteps (steps : f.Steps g chain) (mem : i ∈ chain) :
    ∃ op, (g.node? i).map Node.op = some op ∧ op.kind ∈ f.pattern := by
  obtain ⟨k, here⟩ := List.mem_iff_getElem?.mp mem
  obtain ⟨⟨op, found, kind⟩, _⟩ := asksIff.mp (steps k i here)
  exact ⟨op, found, List.mem_of_getElem? kind⟩

theorem privateRenamed (renames : Renames g h rename) (all : ∀ j ∈ chain, g.isActive j = true)
    (mem : w ∈ chain) : isPrivate h (chain.map rename) (rename w) = isPrivate g chain w := by
  have embeds := renames.embeds
  have active := all w mem
  have renamed := (renames.onto _).mpr ⟨w, active, rfl⟩
  rw [Bool.eq_iff_iff, privateIff renames.left, privateIff renames.right, embeds.outputs active,
    renames.externalOutputs]
  refine and_congr (by simp [activeInRange active, activeInRange renamed])
    (and_congr_left fun _ => ?_)
  constructor
  · intro quiet i blob there edge
    have found := quiet (rename i) blob ((renames.onto _).mpr ⟨i, there, rfl⟩)
      ((embeds.links w i blob active there).mpr edge)
    exact (embeds.memMap all there).mp found
  · intro quiet y blob there edge
    obtain ⟨i, here, rfl⟩ := (renames.onto y).mp there
    exact List.mem_map_of_mem
      (quiet i blob here ((embeds.links w i blob active here).mp edge))

theorem validateRenamed (renames : Renames g h rename) (all : ∀ j ∈ chain, g.isActive j = true) :
    f.validate h (chain.map rename) = f.validate g chain := by
  have quiet : (chain.map rename).dropLast.all (isPrivate h (chain.map rename)) =
      chain.dropLast.all (isPrivate g chain) := by
    rw [← List.map_dropLast, List.all_map]
    rw [Bool.eq_iff_iff, List.all_eq_true, List.all_eq_true]
    refine forall₂_congr fun w mem => ?_
    rw [Function.comp_apply, privateRenamed renames all (List.dropLast_subset _ mem)]
  simp only [validate, quiet, List.length_map, List.isEmpty_map]

end

end Fusion

namespace Net.Collapsed
open OpNet.Graph
variable {net out : Net} {groups : List Group} {g : Graph} {order : List Nat} {i p x : Nat}

section
variable (ok : g.topologicalOrder = .ok order) (exported : g.toNet = .ok out)
include ok

theorem placeOf (c : Collapsed net groups g) (active : g.isActive x = true) :
    order[order.idxOf x]? = some x := by
  have mem := ((c.mirrored.executionOrder ok).active x).mpr active
  rw [List.getElem?_eq_getElem (List.idxOf_lt_length_iff.mpr mem), List.getElem_idxOf]

include exported

theorem opExported (c : Collapsed net groups g) (at_ : order[p]? = some x) :
    ((ofNet out).node? p).map Node.op = (g.node? x).map Node.op := by
  obtain ⟨unit, found, op, _⟩ := c.placed ok exported at_
  rw [opOfNet, op, c.op, ← unitsOp, List.getElem?_map, found, Option.map_some]

theorem renamesExported (c : Collapsed net groups g) :
    Renames g (ofNet out) (fun x => order.idxOf x) where
  embeds := {
    injective := by
      intro i j activeI activeJ same
      have placeI := c.placeOf ok activeI
      rw [same, c.placeOf ok activeJ] at placeI
      exact (Option.some.inj placeI).symm
    op := fun i active => c.opExported ok exported (c.placeOf ok active)
    links := by
      intro i j blob activeI activeJ
      rw [c.exportedEdges ok exported, c.placeOf ok activeI, c.placeOf ok activeJ]
      simp }
  onto y := by
    rw [isActiveOfNet, decide_eq_true_eq]
    constructor
    · intro inside
      obtain ⟨x, at_⟩ := c.atPlace ok exported inside
      obtain ⟨_, _, _, active⟩ := c.placed ok exported at_
      exact ⟨x, active, c.indexed ok at_⟩
    · intro ⟨x, active, same⟩
      rw [← c.exportedLength ok exported, ← same]
      exact (List.getElem?_eq_some_iff.mp (c.placeOf ok active)).1
  externalOutputs := by
    rw [(sameNodesOfNet out).externalOutputs]
    rw [toNetOfOrder ok] at exported
    exact (congrArg Net.externalOutputs (Except.ok.inj exported)).symm
  left := c.mirrored
  right := mirroredOfNet out

end

theorem embedsFree (c : Collapsed net groups g) :
    Embeds g (ofNet net) (fun i => i < net.ops.length ∧ g.isActive i = true) id where
  injective _ _ _ _ same := same
  op i live := by
    rw [id, opOfNet, c.op, List.getElem?_append_left live.1]
  links i j blob liveI liveJ := by
    have own : ∀ i, g.isActive i = true → net.home (groups.map Group.members) i = i :=
      fun i active => homeOutside ((c.active i).mp active).2
    refine Iff.trans ?_ (c.links blob i j liveI.2 liveJ.2).symm
    constructor
    · intro edge
      have less : i < j := lessOfBefore (beforeOfParent edge)
      exact ⟨by omega, i, j, own i liveI.2, own j liveJ.2, edge⟩
    · intro ⟨_, a, b, homeA, homeB, edge⟩
      have ownA := homeOwn (homeA ▸ liveI.1)
      have ownB := homeOwn (homeB ▸ liveJ.1)
      rw [ownA] at homeA
      rw [ownB] at homeB
      subst homeA homeB
      exact edge

end Net.Collapsed

end OpNet
