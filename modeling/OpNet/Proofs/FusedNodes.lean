import OpNet.Proofs.Fixpoint

/-!
The nodes that a pass of a fusion adds. Every match was found on the graph of the net but is
rewritten on a graph that earlier matches have changed. Main statement: none of them goes stale, and
the node added for a match holds the operator that the fusion makes of it on the graph of the net.
-/
namespace OpNet.Fusion
open OpNet.Graph Search Net

section
variable {f : Fusion} {g last : Graph} {found : List Match} {standing : List (Nat × List Nat)}
  {chain : List Nat} {kinds : List String} {ops : List Operator} {op : Operator}

theorem membersPick (long : chain.length = kinds.length) (ok : f.members g chain kinds = .ok ops) :
    (chain.map fun i => (g.node? i).map Node.op) = ops.map some := by
  induction chain generalizing kinds ops with
  | nil =>
    cases kinds <;> cases ok <;> rfl
  | cons i rest ih =>
    cases kinds with
    | nil => cases long
    | cons kind kinds =>
      simp only [members, node] at ok
      cases here : g.node? i with
      | none => simp [here, bind, Except.bind] at ok
      | some node =>
        simp only [here, bind, Except.bind] at ok
        split at ok
        · obtain ⟨later, tail, ok⟩ := bindOk.mp ok
          cases ok
          rw [List.map_cons, List.map_cons, here, ih (Nat.succ.inj long) tail, Option.map_some]
        · cases ok

theorem replacementBoundary (ok : f.replacement g chain = .ok op) :
    g.subgraphInputs chain = .ok op.inputs ∧ ∃ last node, chain.getLast? = some last ∧
      g.node? last = some node ∧ op.outputs = node.op.outputs := by
  unfold replacement at ok
  split at ok
  · cases ok
  · next long =>
    obtain ⟨ops, members, ok⟩ := bindOk.mp ok
    cases final : ops.getLast? with
    | none => simp [final] at ok
    | some last =>
      simp only [final] at ok
      obtain ⟨inputs, asked, ok⟩ := bindOk.mp ok
      cases ok
      obtain ⟨reads, writes⟩ := f.mergedBoundary ops inputs last.outputs
      have picked := congrArg List.getLast? (membersPick (Decidable.not_not.mp long) members)
      rw [List.getLast?_map, List.getLast?_map, final, Option.map_some] at picked
      obtain ⟨i, found, here⟩ := Option.map_eq_some_iff.mp picked
      obtain ⟨node, there, rfl⟩ := Option.map_eq_some_iff.mp here
      exact ⟨asked.trans (congrArg Except.ok reads.symm), i, node, found, there, writes⟩

end

section
variable {f : Fusion} {net : Net} {found : List Match}

theorem sparedOfNet (net : Net) (found : List Match) : spared (ofNet net) found =
    (List.range net.ops.length).filter fun i => found.all fun m => !m.nodes.contains i := by
  rw [spared, activeNodesOfNet]

namespace Chains

theorem inside (chains : f.Chains net found) : ∀ m ∈ found, ∀ i ∈ m.nodes, i < (ofNet net).size :=
  fun m mem i member => by simpa using (chains.fusible m mem).inRange i member

theorem parts (chains : f.Chains net found) :
    (spared (ofNet net) found ++ found.flatMap Match.nodes).Perm (List.range net.ops.length) := by
  have nodup : (found.flatMap Match.nodes).Nodup := by
    rw [List.flatMap_def, List.nodup_flatten]
    refine ⟨fun chain mem => (chains.separate.ascending chain mem).imp Nat.ne_of_lt, ?_⟩
    exact chains.separate.apart.imp fun apart => List.disjoint_left.mpr fun i => apart i
  have held : (found.flatMap Match.nodes).Perm ((List.range net.ops.length).filter fun i =>
      !(found.all fun m => !m.nodes.contains i)) := by
    refine (List.perm_ext_iff_of_nodup nodup (List.nodup_range.filter _)).mpr fun i => ?_
    rw [List.mem_flatMap, List.mem_filter, List.mem_range]
    simp only [List.not_all_eq_any_not, Bool.not_not, List.any_eq_true, List.contains_iff_mem]
    refine (and_iff_right_of_imp ?_).symm
    intro ⟨m, mem, here⟩
    exact (chains.fusible m mem).inRange i here
  rw [sparedOfNet]
  exact (held.append_left _).trans (List.filter_append_perm _ _)

theorem sparedCount (chains : f.Chains net found) :
    (spared (ofNet net) found).length + (found.flatMap Match.nodes).length = net.ops.length := by
  rw [← List.length_append, chains.parts.length_eq, List.length_range]

theorem heldCount (chains : f.Chains net found) : (found.flatMap Match.nodes).length =
    found.length * (f.pattern.length - 1) + found.length := by
  obtain ⟨fusible, apart⟩ := chains
  clear apart
  induction found with
  | nil => simp
  | cons m rest ih =>
    obtain ⟨here, later⟩ := List.forall_mem_cons.mp fusible
    have some := List.length_pos_iff.mpr here.nonempty
    rw [here.length] at some
    rw [List.flatMap_cons, List.length_append, ih later, here.length, List.length_cons,
      Nat.succ_mul]
    omega

end Chains

theorem everyMatchFused (f : Fusion) (strategy : Option Strategy) (net : Net) :
    let pass := Pass.mk f.rule { strategy }
    let last := (pass.run (ofNet net)).graph
    ∃ report, (pass.run (ofNet net)).report = .ok report ∧
      pass.findMatches (ofNet net) = .ok report.found ∧
      (report.apply.outcomes = report.found.map fun m => .applied m.nodes) ∧
      report.apply.skippedCount = 0 ∧
      last.size = net.ops.length + report.found.length ∧
      (∀ (i : Nat) (m : Match), report.found[i]? = some m → ∃ node final,
        last.node? (net.ops.length + i) = some node ∧
        f.replacement (ofNet net) m.nodes = .ok node.op ∧
        node.op.kind = f.fused ∧
        m.nodes.getLast?.bind (net.ops[·]?) = some final ∧ node.op.outputs = final.outputs ∧
        (ofNet net).subgraphInputs m.nodes = .ok node.op.inputs) ∧
      last.activeNodes = ((List.range net.ops.length).filter fun i =>
          report.found.all fun m => !m.nodes.contains i) ++
        List.range' net.ops.length report.found.length ∧
      last.activeCount + report.found.length * (f.pattern.length - 1) = net.ops.length := by
  intro pass last
  obtain ⟨result, searched⟩ : ∃ result, findMatches (ofNet net) f.rule { strategy } = .ok result :=
    findMatchesOk rfl (ofNet net) f.rule
  have legal := findMatchesLegal searched
  have chains := chainsOfLegal legal
  obtain ⟨g, standing, groups, fused⟩ := chains.fused
  obtain ⟨graph, report, written, found, outcomes⟩ := runFused searched fused
  have graph : last = g := graph
  have appends := appendsOfFuseEach chains.inside fused.fused
  have size := appends.size
  have active := appends.activeNodes
  rw [sizeOfNet] at size active
  refine ⟨report, written, ?_, found ▸ outcomes, ?_, ?_⟩
  · simp [pass, Pass.findMatches, Pass.search, searched, found, Except.mapError, Except.map]
  · simp [Apply.Report.skippedCount, Apply.Report.appliedCount, outcomes, List.countP_map,
      Function.comp_def, Apply.Outcome.isApplied]
  rw [graph, found]
  refine ⟨size, fun i m at_ => ?_, ?_, ?_⟩
  · obtain ⟨op, made, holds⟩ := appends.addedAt at_
    rw [sizeOfNet] at holds
    obtain ⟨node, there, rfl⟩ := Option.map_eq_some_iff.mp holds
    obtain ⟨reads, final, member, ends, known, writes⟩ := replacementBoundary made
    have here : net.ops[final]? = some member.op := by rw [← opOfNet, known]; rfl
    exact ⟨node, member.op, there, made, replacementKind made, by rw [ends]; exact here, writes,
      reads⟩
  · rw [active, sparedOfNet]
  · have counted := chains.sparedCount
    have held := chains.heldCount
    rw [activeCount, active, List.length_append, List.length_range']
    omega

end

end OpNet.Fusion
