import OpNet.Pass
import OpNet.Rule.Fusion
import OpNet.Proofs.Admissible
import OpNet.Proofs.Boundary

/-!
Chains that a fusion finds and rewrites. A chain stands in net order whatever the strategy, since
every member reads from the one before it; what its intermediates write stays inside; so its last
outputs and what enters it are all that the rest of the net needs of it.
-/
namespace OpNet

structure Fusion.Fusible (f : Fusion) (net : Net) (chain : List Nat) : Prop where
  inRange : ∀ i ∈ chain, i < net.ops.length
  ascending : chain.Pairwise (· < ·)
  nonempty : chain ≠ []
  length : chain.length = f.pattern.length
  kinds : (net.pick chain).map Operator.kind = f.pattern
  inner : ∀ w ∈ chain.dropLast, ∀ m blob, net.Reads m blob → net.LastWriter blob w m → m ∈ chain
  hidden : ∀ w ∈ chain.dropLast, ∀ blob, net.Writes w blob → blob ∉ net.externalOutputs

theorem Operator.withArgsBoundary (op : Operator) (entries : List (String × String)) :
    (op.withArgs entries).inputs = op.inputs ∧ (op.withArgs entries).outputs = op.outputs := by
  unfold withArgs
  induction entries generalizing op with
  | nil => exact ⟨rfl, rfl⟩
  | cons entry rest ih => exact ih (op.withArg entry.1 entry.2)

namespace Fusion
open OpNet.Graph Search Net

variable {f : Fusion} {net : Net} {chain : List Nat} {i : Nat}

theorem acceptIff {g : Graph} : f.accept g chain i = true ↔
    ∃ node, g.node? i = some node ∧ f.pattern[chain.length]? = some node.op.kind ∧
      ∀ previous, chain.getLast? = some previous → previous ∈ node.parents.nodes := by
  unfold accept
  cases f.pattern[chain.length]? with
  | none => simp
  | some expected =>
    cases g.node? i with
    | none => simp
    | some node => cases chain.getLast? <;> simp [eq_comm (a := expected)]

theorem acceptOfNet (accepted : f.accept (ofNet net) chain i = true) :
    ∃ op, net.ops[i]? = some op ∧ f.pattern[chain.length]? = some op.kind ∧
      ∀ previous, chain.getLast? = some previous → previous < i := by
  obtain ⟨node, found, kind, linked⟩ := acceptIff.mp accepted
  refine ⟨node.op, by rw [← opOfNet, found]; rfl, kind, fun previous last => ?_⟩
  have parents : (ofNet net).parents i = node.parents := by simp [Graph.parents, found]
  have before : (ofNet net).Before previous i := Or.inl (parents ▸ linked previous last)
  exact lessOfBefore before

theorem admissibleChain {strategy : Strategy} {taken : Marks}
    (admissible : Admissible (ofNet net) f.rule strategy taken chain) :
    (∀ i ∈ chain, i < net.ops.length) ∧ chain.Pairwise (· < ·) ∧
      (net.pick chain).map Operator.kind = f.pattern.take chain.length := by
  induction admissible with
  | @start i inside _ accepted =>
    obtain ⟨op, here, kind, _⟩ := acceptOfNet accepted
    refine ⟨by simpa using inside, List.pairwise_singleton _ _, ?_⟩
    rw [pickCons here, pickNil, List.length_singleton, List.take_add_one]
    simpa using congrArg Option.toList kind.symm
  | @grow grown i before offered accepted ih =>
    obtain ⟨inRange, ascending, kinds⟩ := ih
    obtain ⟨op, here, kind, later⟩ := acceptOfNet accepted
    refine ⟨?_, ?_, ?_⟩
    · have inside := (List.getElem?_eq_some_iff.mp here).1
      exact List.forall_mem_append.mpr ⟨inRange, List.forall_mem_singleton.mpr inside⟩
    · refine List.pairwise_append.mpr ⟨ascending, List.pairwise_singleton _ _, ?_⟩
      intro k mem last same
      obtain ⟨previous, found⟩ := existsLast before.nonempty
      have bound := atMostLast ascending found mem
      have less := later previous found
      rw [List.mem_singleton.mp same]
      omega
    · rw [pickAppend, pickCons here, pickNil, List.map_append, kinds, List.length_append,
        List.length_singleton, List.take_add_one, kind]
      rfl

theorem privateOfNet (inside : i < net.ops.length)
    (hidden : isPrivate (ofNet net) chain i = true) :
    (∀ m blob, net.Reads m blob → net.LastWriter blob i m → m ∈ chain) ∧
      ∀ blob, net.Writes i blob → blob ∉ net.externalOutputs := by
  obtain ⟨node, found⟩ := someNodeIff.mpr (show i < (ofNet net).size by simpa using inside)
  have here : net.ops[i]? = some node.op := by rw [← opOfNet, found]; rfl
  simp only [isPrivate, found, Option.any_some, Bool.and_eq_true, List.all_eq_true,
    Bool.or_eq_true, Bool.not_eq_true', List.contains_eq_mem, decide_eq_true_eq,
    decide_eq_false_iff_not] at hidden
  refine ⟨fun m blob reads last => ?_, fun blob writes => ?_⟩
  · have edge := ((mirroredOfNet net).links i m blob).mpr (memParentsOfNet.mpr ⟨reads, last⟩)
    simp only [Graph.children, found, Option.elim_some] at edge
    have active : (ofNet net).isActive m = true := by simpa [isActiveOfNet] using reads.inRange
    refine (hidden.1 m (Links.memNodes.mpr ⟨blob, edge⟩)).resolve_right fun inactive => ?_
    rw [active] at inactive
    cases inactive
  · have same : (ofNet net).externalOutputs = net.externalOutputs :=
      (sameNodesOfNet net).externalOutputs
    exact same ▸ hidden.2 blob ((writesIff here).mp writes)

theorem fusibleOfMatch {strategy : Strategy} {taken : Marks}
    (admissible : Admissible (ofNet net) f.rule strategy taken chain)
    (valid : f.validate (ofNet net) chain = true) : f.Fusible net chain := by
  obtain ⟨inRange, ascending, kinds⟩ := admissibleChain admissible
  simp only [validate, Bool.and_eq_true, decide_eq_true_eq, List.all_eq_true] at valid
  obtain ⟨⟨length, _⟩, quiet⟩ := valid
  have each : ∀ w ∈ chain.dropLast, _ := fun w mem =>
    privateOfNet (inRange w (List.dropLast_subset _ mem)) (quiet w mem)
  exact {
    inRange := inRange
    ascending := ascending
    nonempty := admissible.nonempty
    length := length
    kinds := by rw [kinds, length, List.take_length]
    inner := fun w mem => (each w mem).1
    hidden := fun w mem => (each w mem).2 }

theorem mergedBoundary (f : Fusion) (ops : List Operator) (inputs outputs : List String) :
    (f.merged ops inputs outputs).inputs = inputs ∧
      (f.merged ops inputs outputs).outputs = outputs :=
  Operator.withArgsBoundary _ _

section
variable {groups : List Group} {g : Graph}
  (separate : net.Separate (groups.map Group.members ++ [chain]))

theorem membersOk (c : Collapsed net groups g) {nodes : List Nat} {kinds : List String}
    (inRange : ∀ i ∈ nodes, i < net.ops.length)
    (same : (net.pick nodes).map Operator.kind = kinds) :
    f.members g nodes kinds = .ok (net.pick nodes) := by
  induction nodes generalizing kinds with
  | nil =>
    cases kinds <;> rfl
  | cons i rest ih =>
    obtain ⟨here, later⟩ := List.forall_mem_cons.mp inRange
    obtain ⟨node, found, at_⟩ := c.nodeAt here
    rw [pickCons at_, List.map_cons] at same
    subst same
    have known : g.node i = .ok node := by simp [Graph.node, found]
    simp only [Fusion.members, known, ih later rfl, pickCons at_, if_true, bind, Except.bind, pure,
      Except.pure]

include separate

theorem coversChain (c : Collapsed net groups g) (fusible : f.Fusible net chain) {last : Nat}
    {op : Operator} (found : chain.getLast? = some last) (inputs : op.inputs = g.entering chain)
    (outputs : ∀ blob, blob ∈ op.outputs ↔ net.Writes last blob) : net.Covers ⟨op, chain⟩ := by
  exact {
    entering := by
      intro m mem blob reads none
      rw [inputs]
      exact (Collapsed.enteringIff separate c fun _ => Iff.rfl).mpr ⟨m, mem, reads, none⟩
    needed := by
      intro blob listed
      rw [inputs] at listed
      exact (Collapsed.enteringIff separate c fun _ => Iff.rfl).mp listed
    leaving := by
      intro w mem m blob out reads writer
      rcases innerOrLast found mem with inner | rfl
      · exact absurd (fusible.inner w inner m blob reads writer) out
      · exact (outputs blob).mpr writer.2.1
    kept := by
      intro w mem blob writes wanted
      rcases innerOrLast found mem with inner | rfl
      · exact absurd wanted (fusible.hidden w inner blob writes)
      · exact (outputs blob).mpr writes
    written := fun blob listed => ⟨last, List.mem_of_getLast? found, (outputs blob).mp listed⟩ }

theorem replacementOk (c : Collapsed net groups g) (fusible : f.Fusible net chain) :
    ∃ op, f.replacement g chain = .ok op ∧ net.Covers ⟨op, chain⟩ := by
  obtain ⟨last, found⟩ := existsLast fusible.nonempty
  obtain ⟨front, same⟩ := List.getLast?_eq_some_iff.mp found
  obtain ⟨node, _, at_⟩ := c.nodeAt (fusible.inRange last (by simp [same]))
  have final : (net.pick chain).getLast? = some node.op := by
    rw [same, pickAppend, pickCons at_, pickNil, List.getLast?_concat]
  have inside : ∀ i ∈ chain, i < g.size := fun i mem =>
    activeInRange (Collapsed.activeMember separate c mem)
  have inputs : g.subgraphInputs chain = .ok (g.entering chain) := by
    simp only [subgraphInputs, inRangeIff.mpr inside, bind, Except.bind, pure, Except.pure]
  obtain ⟨reads, writes⟩ :=
    f.mergedBoundary (net.pick chain) (g.entering chain) node.op.outputs
  refine ⟨f.merged (net.pick chain) (g.entering chain) node.op.outputs, ?_,
    coversChain separate c fusible found reads fun blob => ?_⟩
  · simp only [replacement, fusible.length, ne_eq, not_true, if_false,
      membersOk c fusible.inRange fusible.kinds, final, inputs, bind, Except.bind, pure,
      Except.pure]
  · rw [writes, writesIff at_]

end

end Fusion

end OpNet
