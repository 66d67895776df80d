import OpNet.Catalog
import OpNet.Proofs.Chain

/-!
A whole pass of a fusion. Main statements: the pass rewrites every match it finds; whatever net it
writes computes the external outputs of the original; and it writes one exactly when the matches,
each merged into one node, do not wait for each other in a cycle.
-/
namespace OpNet

universe u

namespace Fusion
open OpNet.Graph Search Net

def fuseEach (f : Fusion) (g : Graph) (found : List Match) :
    Except Error (Graph × List (Nat × List Nat)) :=
  g.replaceEach Match.nodes (fun g m => f.replacement g m.nodes) found

variable {f : Fusion} {net : Net}

theorem continueFused {found : List Match} {g last : Graph} {standing : List (Nat × List Nat)}
    (fused : f.fuseEach g found = .ok (last, standing))
    (active : ∀ m ∈ found, ∀ i ∈ m.nodes, g.isActive i = true)
    (apart : found.Pairwise fun a b => ∀ i ∈ a.nodes, i ∉ b.nodes) (index : Nat)
    (outcomes : List Apply.Outcome) :
    Apply.continueFrom f.rule { graph := g, outcomes } index found =
      { graph := last, outcomes := outcomes ++ found.map fun m => .applied m.nodes } := by
  induction found generalizing g standing index outcomes with
  | nil =>
    cases fused
    simp [Apply.continueFrom]
  | cons m rest ih =>
    obtain ⟨here, later⟩ := List.forall_mem_cons.mp active
    obtain ⟨disjoint, tail⟩ := List.pairwise_cons.mp apart
    have inside : ∀ i ∈ m.nodes, i < g.size := fun i mem => activeInRange (here i mem)
    obtain ⟨op, standing, asked, following⟩ := replaceEachCons inside fused
    -- Members of later matches stay active, so that none of these is skipped.
    have kept : ∀ other ∈ rest, ∀ i ∈ other.nodes, (g.replaced m.nodes op).isActive i = true := by
      intro other mem i member
      have out : i ∉ m.nodes := fun again => disjoint other mem i again member
      simp [isActiveReplaced, later other mem i member, out]
    have fresh : Apply.stale? g m = none := by
      simpa [Apply.stale?] using here
    have step : Apply.step f.rule { graph := g, outcomes } index m =
        { graph := g.replaced m.nodes op, outcomes := outcomes ++ [.applied m.nodes] } := by
      simp only [Apply.step, fresh, rule, fuse, asked, replaceSubgraphOk inside op, bind,
        Except.bind, pure, Except.pure, Rewritten.ofChange]
    simp only [Apply.continueFrom, step]
    rw [ih following kept tail, List.append_assoc]
    rfl

structure Fused (f : Fusion) (net : Net) (found : List Match) (g : Graph)
    (standing : List (Nat × List Nat)) (groups : List Group) : Prop where
  fused : f.fuseEach (ofNet net) found = .ok (g, standing)
  members : groups.map Group.members = found.map Match.nodes
  collapsed : net.Collapsed groups g
  stands : StandsFor standing net.ops.length (found.map Match.nodes)
  applied : Apply.applyMatches f.rule found (ofNet net) =
    { graph := g, outcomes := found.map fun m => .applied m.nodes }

structure Chains (f : Fusion) (net : Net) (found : List Match) : Prop where
  fusible : ∀ m ∈ found, f.Fusible net m.nodes
  apart : found.Pairwise fun a b => ∀ i ∈ a.nodes, i ∉ b.nodes

namespace Chains
variable {found : List Match}

theorem separate (chains : f.Chains net found) : net.Separate (found.map Match.nodes) where
  inRange := List.forall_mem_map.mpr fun m mem => (chains.fusible m mem).inRange
  apart := List.pairwise_map.mpr chains.apart
  ascending := List.forall_mem_map.mpr fun m mem => (chains.fusible m mem).ascending

theorem fused (chains : f.Chains net found) :
    ∃ g standing groups, f.Fused net found g standing groups := by
  obtain ⟨groups, g, standing, ok, members, collapsed, stands⟩ :=
    (collapsedOfNet net).replaceEach (fun g m => f.replacement g m.nodes) found
      (fun m _ i => Iff.rfl) chains.separate fun m mem groups g c separate =>
        replacementOk separate c (chains.fusible m mem)
  refine ⟨g, standing, groups, ok, members, collapsed, sizeOfNet net ▸ stands, ?_⟩
  refine continueFused ok (fun m mem i member => ?_) chains.apart 0 []
  simpa [isActiveOfNet] using (chains.fusible m mem).inRange i member

end Chains

section
variable {strategy : Strategy} {result : Found}

theorem fusibleMatches (legal : result.Legal (ofNet net) f.rule strategy) :
    ∀ chain ∈ result.found.map Match.nodes, f.Fusible net chain := by
  intro chain mem
  obtain ⟨m, there, rfl⟩ := List.mem_map.mp mem
  obtain ⟨valid, taken, admissible⟩ := legal.each m there
  exact fusibleOfMatch admissible valid

theorem chainsOfLegal (legal : result.Legal (ofNet net) f.rule strategy) :
    f.Chains net result.found :=
  ⟨List.forall_mem_map.mp (fusibleMatches legal), legal.apart⟩

theorem separateMatches (legal : result.Legal (ofNet net) f.rule strategy) :
    net.Separate (result.found.map Match.nodes) := (chainsOfLegal legal).separate

theorem fusedOfLegal (legal : result.Legal (ofNet net) f.rule strategy) :
    ∃ g standing groups, f.Fused net result.found g standing groups := (chainsOfLegal legal).fused

end

section
variable {config : Config} {result : Found} {g : Graph} {standing : List (Nat × List Nat)}
  {groups : List Group}

theorem runFused (searched : findMatches (ofNet net) f.rule config = .ok result)
    (fused : f.Fused net result.found g standing groups) :
    ((Pass.mk f.rule config).run (ofNet net)).graph = g ∧
      ∃ report, ((Pass.mk f.rule config).run (ofNet net)).report = .ok report ∧
        report.found = result.found ∧
        report.apply.outcomes = result.found.map fun m => .applied m.nodes := by
  have found : (Pass.mk f.rule config).search (ofNet net) = .ok result := by
    rw [Pass.search, searched]
    rfl
  unfold Pass.run
  rw [found]
  simp only [fused.applied]
  exact ⟨trivial, _, rfl, rfl, rfl⟩

theorem applyToFused (searched : findMatches (ofNet net) f.rule config = .ok result)
    (fused : f.Fused net result.found g standing groups) :
    (Pass.mk f.rule config).applyTo net = g.toNet := by
  obtain ⟨same, report, written, _⟩ := runFused searched fused
  simp only [Pass.applyTo, Pass.runNet, written, same, bind, Except.bind]
  cases g.toNet <;> rfl

end

theorem fusedRunsAlike {V : Type u} (meaning : Meaning V) (blank env : Env V) (f : Fusion)
    (config : Config) (net out : Net) (ok : (Pass.mk f.rule config).applyTo net = .ok out) :
    ∃ found g standing order, (Pass.mk f.rule config).findMatches (ofNet net) = .ok found ∧
      f.fuseEach (ofNet net) found = .ok (g, standing) ∧
      ((Pass.mk f.rule config).run (ofNet net)).graph = g ∧ g.toNet = .ok out ∧
      g.topologicalOrder = .ok order ∧ order.length = out.ops.length ∧
      ∀ blob ∈ net.externalOutputs,
        runStanding meaning blank net standing (order.zip out.ops) env blob =
          runOps meaning net.ops env blob := by
  cases searched : findMatches (ofNet net) f.rule config with
  | error e =>
    simp [Pass.applyTo, Pass.runNet, Pass.run, Pass.search, searched, Except.mapError, bind,
      Except.bind, Except.map] at ok
  | ok result =>
    obtain ⟨g, standing, groups, fused⟩ := fusedOfLegal (findMatchesLegal searched)
    rw [applyToFused searched fused] at ok
    obtain ⟨order, found, length, alike⟩ := Collapsed.exportRunsAlike meaning blank env
      fused.collapsed (fused.members ▸ fused.stands) ok
    refine ⟨result.found, g, standing, order, ?_, fused.fused, (runFused searched fused).1, ok,
      found, length, alike⟩
    simp [Pass.findMatches, Pass.search, searched, Except.mapError, Except.map]

def convRelu : Fusion where
  name := "fuse_conv_relu"
  pattern := ["Conv", "Relu"]
  fused := "ConvRelu"

def overwrittenInput : Net where
  ops :=
    [{ kind := "Conv", inputs := ["X", "W"], outputs := ["C"] },
     { kind := "Relu", inputs := ["C"], outputs := ["R"] },
     { kind := "Fill", outputs := ["X"] },
     { kind := "Pool", inputs := ["R", "X"], outputs := ["P"] }]
  externalInputs := ["X", "W"]
  externalOutputs := ["P"]

def overwrittenInputFused : Net where
  ops :=
    [{ kind := "ConvRelu", inputs := ["X", "W"], outputs := ["R"] },
     { kind := "Fill", outputs := ["X"] },
     { kind := "Pool", inputs := ["R", "X"], outputs := ["P"] }]
  externalInputs := ["X", "W"]
  externalOutputs := ["P"]

theorem overwrittenInputRunsAlike :
    let meaning : Meaning Nat := fun op values k => values.foldl (· + ·) (op.inputs.length + k)
    (Pass.mk convRelu.rule {}).applyTo overwrittenInput = .ok overwrittenInputFused ∧
      ∃ found g standing order,
        convRelu.fuseEach (ofNet overwrittenInput) found = .ok (g, standing) ∧
        g.topologicalOrder = .ok order ∧
        runStanding meaning (fun _ => 0) overwrittenInput standing
          (order.zip overwrittenInputFused.ops) (fun _ => 1) "P" =
            runOps meaning overwrittenInput.ops (fun _ => 1) "P" := by
  intro meaning
  have ok : (Pass.mk convRelu.rule {}).applyTo overwrittenInput = .ok overwrittenInputFused := rfl
  obtain ⟨found, g, standing, order, _, fused, _, _, ordered, _, alike⟩ :=
    fusedRunsAlike meaning (fun _ => 0) (fun _ => 1) convRelu {} overwrittenInput
      overwrittenInputFused ok
  exact ⟨ok, found, g, standing, order, fused, ordered, alike "P" (by decide)⟩

/-- The last member of the match that node `x` stands for; any other node itself. -/
def lastMember (net : Net) (chains : List (List Nat)) (x : Nat) : Nat :=
  if x < net.ops.length then x else ((chains[x - net.ops.length]?).bind List.getLast?).getD 0

section
variable {chains : List (List Nat)} {i j x y : Nat}

theorem lastMemberHigh {chain : List Nat} {k last : Nat} (at_ : chains[k]? = some chain)
    (found : chain.getLast? = some last) :
    lastMember net chains (net.ops.length + k) = last := by
  simp [lastMember, at_, found]

theorem atMostLastMember (fusible : ∀ chain ∈ chains, f.Fusible net chain)
    (inside : i < net.ops.length) :
    i ≤ lastMember net chains (net.home chains i) := by
  rcases homeCases net chains i with ⟨_, same⟩ | ⟨k, chain, at_, mem, same⟩
  · rw [same, lastMember, if_pos inside]
  · have whole := fusible chain (List.mem_of_getElem? at_)
    obtain ⟨last, found⟩ := existsLast whole.nonempty
    rw [same, lastMemberHigh at_ found]
    exact atMostLast whole.ascending found mem

theorem leavesFromLast (separate : net.Separate chains)
    (fusible : ∀ chain ∈ chains, f.Fusible net chain)
    (quiet : ∀ chain ∈ chains, ∀ w ∈ chain.dropLast, ∀ i ∈ (ofNet net).runsBefore w, i ∈ chain)
    (before : (ofNet net).Before i j) (apart : net.home chains i ≠ net.home chains j) :
    lastMember net chains (net.home chains i) = i := by
  have less := lessOfBefore before
  have top := inRangeOfBefore before
  rcases homeCases net chains i with ⟨_, same⟩ | ⟨k, chain, at_, mem, same⟩
  · rw [same, lastMember, if_pos (by omega)]
  · have there := List.mem_of_getElem? at_
    have whole := fusible chain there
    obtain ⟨last, found⟩ := existsLast whole.nonempty
    have out : j ∉ chain := fun member => apart (same.trans (separate.home at_ member).symm)
    rw [same, lastMemberHigh at_ found]
    refine ((innerOrLast found mem).resolve_left fun inner => out ?_).symm
    rcases before with parent | ordering
    · obtain ⟨blob, edge⟩ := Links.memNodes.mp parent
      obtain ⟨reads, writer⟩ := memParentsOfNet.mp edge
      exact whole.inner i inner j blob reads writer
    · exact quiet chain there i inner j (((mirroredOfNet net).orderings i j).mpr ordering)

theorem acyclicOfQuiet (separate : net.Separate chains)
    (fusible : ∀ chain ∈ chains, f.Fusible net chain)
    (quiet : ∀ chain ∈ chains, ∀ w ∈ chain.dropLast, ∀ i ∈ (ofNet net).runsBefore w, i ∈ chain) :
    Acyclic (net.Merged chains) := by
  -- What leaves a chain leaves from its last member, so an edge climbs in that member's index.
  have rising : ∀ {x y}, net.Merged chains x y →
      lastMember net chains x < lastMember net chains y := by
    intro x y h
    obtain ⟨apart, i, j, rfl, rfl, before⟩ := h
    have less := lessOfBefore before
    have last := leavesFromLast separate fusible quiet before apart
    have bound := atMostLastMember fusible (inRangeOfBefore before)
    omega
  intro x cycle
  have climbs : ∀ y, Relation.TransGen (net.Merged chains) x y →
      lastMember net chains x < lastMember net chains y := by
    intro y path
    induction path with
    | single edge => exact rising edge
    | tail _ edge ih => exact Nat.lt_trans ih (rising edge)
  exact Nat.lt_irrefl _ (climbs x cycle)

end

theorem fusionPassOkIff (f : Fusion) (strategy : Option Strategy) (net : Net) :
    ∃ found report, (Pass.mk f.rule { strategy }).findMatches (ofNet net) = .ok found ∧
      ((Pass.mk f.rule { strategy }).run (ofNet net)).report = .ok report ∧
      (report.apply.outcomes = found.map fun m => .applied m.nodes) ∧
      ((∃ out, (Pass.mk f.rule { strategy }).applyTo net = .ok out) ↔
        Acyclic (net.Merged (found.map Match.nodes))) ∧
      (∀ e, (Pass.mk f.rule { strategy }).applyTo net = .error e →
        ∃ ordered active, e = Cause.invalidGraph (.cycle ordered active)) ∧
      ((∀ chain ∈ found.map Match.nodes, ∀ w ∈ chain.dropLast, ∀ i ∈ (ofNet net).runsBefore w,
        i ∈ chain) → ∃ out, (Pass.mk f.rule { strategy }).applyTo net = .ok out) := by
  obtain ⟨result, searched⟩ : ∃ result, findMatches (ofNet net) f.rule { strategy } = .ok result :=
    findMatchesOk rfl (ofNet net) f.rule
  have legal := findMatchesLegal searched
  obtain ⟨g, standing, groups, fused⟩ := fusedOfLegal legal
  obtain ⟨_, report, written, _, outcomes⟩ := runFused searched fused
  have okIff : (∃ out, (Pass.mk f.rule { strategy }).applyTo net = .ok out) ↔
      Acyclic (net.Merged (result.found.map Match.nodes)) := by
    rw [applyToFused searched fused, toNetOkIff, fused.collapsed.orderOkIff, fused.members]
  refine ⟨result.found, report, ?_, written, outcomes, okIff, fun e failed => ?_, fun quiet => ?_⟩
  · simp [Pass.findMatches, Pass.search, searched, Except.mapError, Except.map]
  · rw [applyToFused searched fused] at failed
    exact toNetError failed
  · exact okIff.mpr (acyclicOfQuiet (separateMatches legal) (fusibleMatches legal) quiet)

def overwrittenBetween : Net where
  ops :=
    [{ kind := "Conv", inputs := ["X"], outputs := ["C"] },
     { kind := "Fill", outputs := ["X"] },
     { kind := "Relu", inputs := ["C", "X"], outputs := ["R"] }]
  externalInputs := ["X"]
  externalOutputs := ["R"]

theorem overwrittenBetweenFails :
    (ofNet overwrittenBetween).toNet = .ok overwrittenBetween ∧
      Catalog.applyBuiltin "fuse_conv_relu" overwrittenBetween =
        .error (Cause.invalidGraph (.cycle 0 2)) :=
  ⟨rfl, rfl⟩


end Fusion

end OpNet
