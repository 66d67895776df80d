import OpNet.Proofs.ExportedChains

/-!
A pass of a fusion over a graph that earlier passes have rewritten. Such a graph holds inactive
nodes, and the search may put them into matches. Main statement: the pass never fails; it rewrites
the matches without an inactive node and skips the others; and the active operators that are left
are those that no rewritten match holds and one operator for each of these matches.
-/
namespace OpNet

namespace Graph

def opsAt (g : Graph) (nodes : List Nat) : List Operator :=
  nodes.filterMap fun i => (g.node? i).map Node.op

def activeOps (g : Graph) : List Operator := g.opsAt g.activeNodes

section
variable {g h k : Graph} {live : Nat → Prop} {out : Net}

theorem opsAtAppend (g : Graph) (front rest : List Nat) :
    g.opsAt (front ++ rest) = g.opsAt front ++ g.opsAt rest := List.filterMap_append

theorem opsAtCongr {nodes : List Nat}
    (same : ∀ i ∈ nodes, (h.node? i).map Node.op = (g.node? i).map Node.op) :
    h.opsAt nodes = g.opsAt nodes := List.filterMap_congr same

theorem Mirrored.exportedPerm (mirrored : g.Mirrored) (exported : g.toNet = .ok out) :
    out.ops.Perm g.activeOps := by
  obtain ⟨order, found, _⟩ := toNetOk exported
  rw [toNetOfOrder found] at exported
  rw [← congrArg Net.ops (Except.ok.inj exported)]
  exact (topologicalOrderSound mirrored found).1.filterMap _

theorem frameExported (exported : g.toNet = .ok out) : out.name = g.name ∧
    out.externalInputs = g.externalInputs ∧ out.externalOutputs = g.externalOutputs := by
  obtain ⟨order, found, _⟩ := toNetOk exported
  rw [toNetOfOrder found] at exported
  cases exported
  exact ⟨rfl, rfl, rfl⟩

theorem Embeds.refl (g : Graph) (live : Nat → Prop) : Embeds g g live id :=
  ⟨fun _ _ _ _ same => same, fun _ _ => rfl, fun _ _ _ _ _ => Iff.rfl⟩

theorem Embeds.symm (embeds : Embeds g h live id) : Embeds h g live id :=
  ⟨fun _ _ _ _ same => same, fun i there => (embeds.op i there).symm,
    fun i j blob hi hj => (embeds.links i j blob hi hj).symm⟩

theorem Embeds.trans (first : Embeds g h live id) (last : Embeds h k live id) :
    Embeds g k live id :=
  ⟨fun _ _ _ _ same => same, fun i there => (last.op i there).trans (first.op i there),
    fun i j blob hi hj => (last.links i j blob hi hj).trans (first.links i j blob hi hj)⟩

theorem Embeds.mono {fewer : Nat → Prop} {rename : Nat → Nat} (embeds : Embeds g h live rename)
    (all : ∀ i, fewer i → live i) : Embeds g h fewer rename :=
  ⟨fun i j hi hj => embeds.injective i j (all i hi) (all j hj), fun i hi => embeds.op i (all i hi),
    fun i j blob hi hj => embeds.links i j blob (all i hi) (all j hj)⟩

theorem embedsReplaced (g : Graph) (members : List Nat) (op : Operator) :
    Embeds g (g.replaced members op) (· < g.size) id where
  injective _ _ _ _ same := same
  op i there := by
    rw [id, opReplaced, if_neg (Nat.ne_of_lt there)]
  links i j blob hi hj := by
    simp only [id, memParentsReplaced, Nat.ne_of_lt hi, Nat.ne_of_lt hj, false_and, or_false]

end

end Graph

namespace Fusion
open OpNet.Graph Search Net

section
variable {f : Fusion} {g h last : Graph} {live : Nat → Prop} {rename : Nat → Nat}
  {chain : List Nat} {kinds : List String} {ops : List Operator} {op : Operator}

theorem membersEmbed (embeds : Embeds g h live rename) (all : ∀ i ∈ chain, live i)
    (ok : f.members g chain kinds = .ok ops) : f.members h (chain.map rename) kinds = .ok ops := by
  induction chain generalizing kinds ops with
  | nil => exact ok
  | cons i rest ih =>
    cases kinds with
    | nil => exact ok
    | cons kind kinds =>
      obtain ⟨here, later⟩ := List.forall_mem_cons.mp all
      have op := embeds.op i here
      simp only [members, List.map_cons, node] at ok ⊢
      cases found : g.node? i with
      | none => simp [found, bind, Except.bind] at ok
      | some node =>
        rw [found] at op
        obtain ⟨other, there, same⟩ := Option.map_eq_some_iff.mp op
        simp only [found, there, same, bind, Except.bind] at ok ⊢
        split at ok
        · next right =>
          cases tail : f.members g rest kinds with
          | error e => simp [tail] at ok
          | ok ops =>
            rw [tail] at ok
            rw [if_pos right, ih later tail]
            exact ok
        · cases ok

theorem enteringEmbeds (embeds : Embeds g h live rename) (all : ∀ i ∈ chain, live i) :
    h.entering (chain.map rename) = g.entering chain := by
  have supplied : ∀ i ∈ chain, ∀ blob,
      h.suppliedWithin (chain.map rename) (rename i) blob = g.suppliedWithin chain i blob := by
    intro i mem blob
    rw [Bool.eq_iff_iff, suppliedIff, suppliedIff]
    simp only [List.mem_map, exists_exists_and_eq_and]
    exact exists_congr fun w => and_congr_right fun member =>
      embeds.links w i blob (all w member) (all i mem)
  have each : ∀ i ∈ chain, ((h.inputs (rename i)).filter fun blob =>
      !h.suppliedWithin (chain.map rename) (rename i) blob) =
        (g.inputs i).filter fun blob => !g.suppliedWithin chain i blob := by
    intro i mem
    rw [embeds.inputs (all i mem)]
    exact List.filter_congr fun blob _ => by rw [supplied i mem blob]
  unfold entering
  rw [List.flatMap_map]
  exact congrArg firstSeen (List.flatMap_congr each)

theorem replacementEmbeds (embeds : Embeds g h live rename) (all : ∀ i ∈ chain, live i)
    (inside : ∀ i ∈ chain, rename i < h.size) (ok : f.replacement g chain = .ok op) :
    f.replacement h (chain.map rename) = .ok op := by
  unfold replacement at ok ⊢
  rw [List.length_map]
  split at ok
  · cases ok
  · next long =>
    obtain ⟨ops, members, ok⟩ := bindOk.mp ok
    rw [if_neg long, membersEmbed embeds all members]
    cases final : ops.getLast? with
    | none => simp [final] at ok
    | some last =>
      simp only [final] at ok
      obtain ⟨inputs, asked, ok⟩ := bindOk.mp ok
      obtain ⟨_, _, asked⟩ := bindOk.mp asked
      cases asked
      have range : h.inRange (chain.map rename) = .ok () := inRangeIff.mpr (by simpa using inside)
      simp only [subgraphInputs, range, enteringEmbeds embeds all, bind, Except.bind, final, pure,
        Except.pure]
      exact ok

theorem replacementKept (embeds : Embeds g h live id) (all : ∀ i ∈ chain, live i)
    (inside : ∀ i ∈ chain, i < h.size) (ok : f.replacement g chain = .ok op) :
    f.replacement h chain = .ok op := by
  have moved := replacementEmbeds embeds all inside ok
  rwa [List.map_id] at moved

structure Complete (f : Fusion) (g : Graph) (chain : List Nat) : Prop where
  steps : f.Steps g chain
  valid : f.validate g chain = true
  ascending : chain.Pairwise (· < ·)

theorem Complete.inside (complete : f.Complete g chain) : ∀ i ∈ chain, i < g.size := by
  intro i mem
  obtain ⟨op, found, _⟩ := kindsOfSteps complete.steps mem
  obtain ⟨node, there, _⟩ := Option.map_eq_some_iff.mp found
  exact someNodeIff.mp ⟨node, there⟩

theorem Complete.nonempty (complete : f.Complete g chain) : chain ≠ [] := by
  intro none
  have valid := complete.valid
  simp [validate, none] at valid

theorem Complete.length (complete : f.Complete g chain) : chain.length = f.pattern.length := by
  have valid := complete.valid
  simp only [validate, Bool.and_eq_true, decide_eq_true_eq] at valid
  exact valid.1.1

theorem membersOfKinds (all : ∀ (k i : Nat), chain[k]? = some i →
    ∃ op, (g.node? i).map Node.op = some op ∧ kinds[k]? = some op.kind) :
    ∃ ops, f.members g chain kinds = .ok ops ∧ ops.length = chain.length := by
  induction chain generalizing kinds with
  | nil => exact ⟨[], by cases kinds <;> rfl, rfl⟩
  | cons i rest ih =>
    obtain ⟨op, here, kind⟩ := all 0 i rfl
    obtain ⟨node, found, rfl⟩ := Option.map_eq_some_iff.mp here
    cases kinds with
    | nil => cases kind
    | cons first kinds =>
      cases kind
      obtain ⟨ops, tail, length⟩ := ih fun k j there => all (k + 1) j there
      refine ⟨node.op :: ops, ?_, congrArg (· + 1) length⟩
      simp only [members, Graph.node, found, tail, if_true, bind, Except.bind, pure, Except.pure]

theorem Complete.ready (complete : f.Complete g chain) : ∃ op, f.replacement g chain = .ok op := by
  have each : ∀ (k i : Nat), chain[k]? = some i →
      ∃ op, (g.node? i).map Node.op = some op ∧ f.pattern[k]? = some op.kind := by
    intro k i here
    have bound := (List.getElem?_eq_some_iff.mp here).1
    have asked := (asksIff.mp (complete.steps k i here)).1
    rwa [List.length_take, Nat.min_eq_left (Nat.le_of_lt bound)] at asked
  obtain ⟨ops, members, length⟩ := membersOfKinds (f := f) each
  have some : ops ≠ [] := fun none => complete.nonempty <| by
    rw [none] at length
    exact List.length_eq_zero_iff.mp length.symm
  obtain ⟨last, final⟩ := Option.isSome_iff_exists.mp (List.getLast?_isSome.mpr some)
  refine ⟨f.merged ops (g.entering chain) last.outputs, ?_⟩
  simp only [replacement, complete.length, ne_eq, not_true, if_false, members, final,
    subgraphInputs, inRangeIff.mpr complete.inside, bind, Except.bind, pure, Except.pure]

end

end Fusion

def Apply.outcomeOf (g : Graph) (m : Match) : Apply.Outcome :=
  match Apply.stale? g m with
  | some inactive => .skipped m.nodes inactive
  | none => .applied m.nodes

def Match.isLive (g : Graph) (m : Match) : Bool := m.nodes.all g.isActive

theorem Match.liveIff {g : Graph} {m : Match} :
    m.isLive g = true ↔ ∀ i ∈ m.nodes, g.isActive i = true := List.all_eq_true

theorem Apply.staleIff {g : Graph} {m : Match} : Apply.stale? g m = none ↔ m.isLive g = true := by
  simp [stale?, Match.liveIff]

theorem Apply.staleCongr {g h : Graph} {m : Match}
    (same : ∀ i ∈ m.nodes, h.isActive i = g.isActive i) :
    Apply.stale? h m = Apply.stale? g m := by
  unfold stale?
  generalize m.nodes = nodes at same
  induction nodes with
  | nil => rfl
  | cons i rest ih =>
    obtain ⟨here, later⟩ := List.forall_mem_cons.mp same
    rw [List.find?_cons, List.find?_cons, here, ih later]

namespace Fusion
open OpNet.Graph Search Net

section
variable {f : Fusion} {g h last : Graph} {found : List Match} {standing : List (Nat × List Nat)}

theorem fuseEachCons {m : Match} {rest : List Match} {op : Operator}
    (asked : f.replacement g m.nodes = .ok op) (inside : ∀ i ∈ m.nodes, i < g.size)
    (later : f.fuseEach (g.replaced m.nodes op) rest = .ok (last, standing)) :
    f.fuseEach g (m :: rest) = .ok (last, (g.size, m.nodes) :: standing) := by
  unfold fuseEach at later ⊢
  simp only [replaceEach, asked, replaceSubgraphOk inside op, later, bind, Except.bind, pure,
    Except.pure]

theorem stepInPlace {m : Match} {op : Operator} (live : Apply.stale? g m = none)
    (asked : f.replacement g m.nodes = .ok op) (inside : ∀ i ∈ m.nodes, i < g.size)
    (index : Nat) (outcomes : List Apply.Outcome) :
    Apply.step f.rule { graph := g, outcomes } index m =
      { graph := g.replaced m.nodes op, outcomes := outcomes ++ [.applied m.nodes] } := by
  simp only [Apply.step, live, rule, fuse, asked, replaceSubgraphOk inside op, bind, Except.bind,
    pure, Except.pure, Rewritten.ofChange]

theorem continueInPlace (embeds : Embeds g h (· < g.size) id) (grown : g.size ≤ h.size)
    (same : ∀ m ∈ found, ∀ i ∈ m.nodes, h.isActive i = g.isActive i)
    (inside : ∀ m ∈ found, ∀ i ∈ m.nodes, i < g.size)
    (apart : found.Pairwise fun a b => ∀ i ∈ a.nodes, i ∉ b.nodes)
    (ready : ∀ m ∈ found, ∃ op, f.replacement g m.nodes = .ok op) :
    ∃ last standing, f.fuseEach h (found.filter (Match.isLive g)) = .ok (last, standing) ∧
      ∀ index outcomes, Apply.continueFrom f.rule { graph := h, outcomes } index found =
        { graph := last, outcomes := outcomes ++ found.map (Apply.outcomeOf g) } := by
  -- `h` is what the matches before `found` made of `g`; it has kept the nodes of `g`, and the nodes
  -- of `found` are still as they were.
  induction found generalizing h with
  | nil => exact ⟨h, [], rfl, fun index outcomes => by simp [Apply.continueFrom]⟩
  | cons m rest ih =>
    obtain ⟨sameHere, sameLater⟩ := List.forall_mem_cons.mp same
    obtain ⟨insideHere, insideLater⟩ := List.forall_mem_cons.mp inside
    obtain ⟨disjoint, apart⟩ := List.pairwise_cons.mp apart
    obtain ⟨readyHere, readyLater⟩ := List.forall_mem_cons.mp ready
    have stale := Apply.staleCongr sameHere
    cases live : Apply.stale? g m with
    | some inactive =>
      have skipped : m.isLive g = false := by
        rw [← Bool.not_eq_true, ← Apply.staleIff, live]
        simp
      obtain ⟨last, standing, fused, run⟩ := ih embeds grown sameLater insideLater apart readyLater
      refine ⟨last, standing, by rwa [List.filter_cons_of_neg (by simp [skipped])], ?_⟩
      intro index outcomes
      simp only [Apply.continueFrom, Apply.step, stale, live, run, List.map_cons, Apply.outcomeOf,
        List.append_assoc, List.singleton_append]
    | none =>
      have active := Apply.staleIff.mp live
      obtain ⟨op, asked⟩ := readyHere
      have beyond : ∀ i ∈ m.nodes, i < h.size := fun i mem =>
        Nat.lt_of_lt_of_le (insideHere i mem) grown
      have now := replacementKept embeds insideHere beyond asked
      have further := (embedsReplaced h m.nodes op).mono fun i (low : i < g.size) =>
        Nat.lt_of_lt_of_le low grown
      have size := sizeReplaced h m.nodes op
      have kept : ∀ other ∈ rest, ∀ i ∈ other.nodes,
          (h.replaced m.nodes op).isActive i = g.isActive i := by
        intro other mem i member
        have low := insideLater other mem i member
        have out : i ∉ m.nodes := fun again => disjoint other mem i again member
        have old : i ≠ h.size := by omega
        simp [isActiveReplaced, sameLater other mem i member, out, old]
      obtain ⟨last, standing, fused, run⟩ := ih (embeds.trans further) (by omega) kept insideLater
        apart readyLater
      have all := fuseEachCons now beyond fused
      rw [← List.filter_cons_of_pos active] at all
      refine ⟨last, _, all, fun index outcomes => ?_⟩
      have step := stepInPlace (stale.trans live) now beyond index outcomes
      simp only [Apply.continueFrom, step, run, List.map_cons, Apply.outcomeOf, live,
        List.append_assoc, List.singleton_append]

def spared (g : Graph) (found : List Match) : List Nat :=
  g.activeNodes.filter fun i => found.all fun m => !m.nodes.contains i

structure Rewrites (f : Fusion) (g : Graph) (found : List Match) (last : Graph) : Prop where
  mirrored : last.Mirrored
  frame : last.name = g.name ∧ last.externalInputs = g.externalInputs ∧
    last.externalOutputs = g.externalOutputs
  ops : ∃ ops, found.map (fun m => f.replacement g m.nodes) = ops.map .ok ∧
    last.activeOps = g.opsAt (spared g found) ++ ops

theorem Rewrites.exported {out : Net} (rewrites : f.Rewrites g found last)
    (exported : last.toNet = .ok out) : out.name = g.name ∧
      out.externalInputs = g.externalInputs ∧ out.externalOutputs = g.externalOutputs ∧
      out.ops.Perm last.activeOps := by
  obtain ⟨name, inputs, outputs⟩ := rewrites.frame
  obtain ⟨name', inputs', outputs'⟩ := frameExported exported
  exact ⟨name'.trans name, inputs'.trans inputs, outputs'.trans outputs,
    rewrites.mirrored.exportedPerm exported⟩

theorem activeNodesReplaced (g : Graph) (members : List Nat) (op : Operator) :
    (g.replaced members op).activeNodes =
      (g.activeNodes.filter fun i => !members.contains i) ++ [g.size] := by
  have low : ∀ i ∈ List.range g.size, (g.replaced members op).isActive i =
      (g.isActive i && !members.contains i) := by
    intro i mem
    have old : i ≠ g.size := Nat.ne_of_lt (List.mem_range.mp mem)
    simp [isActiveReplaced, old]
  have new : (g.replaced members op).isActive g.size = true := by simp [isActiveReplaced]
  rw [activeNodes, sizeReplaced, List.range_succ, List.filter_append, List.filter_congr low,
    activeNodes, List.filter_filter]
  simp [new, Bool.and_comm]

theorem sparedReplaced {m : Match} {rest : List Match} (op : Operator)
    (inside : ∀ other ∈ rest, ∀ i ∈ other.nodes, i < g.size) :
    spared (g.replaced m.nodes op) rest = spared g (m :: rest) ++ [g.size] := by
  have fresh : (rest.all fun other => !other.nodes.contains g.size) = true := by
    simp only [List.all_eq_true, Bool.not_eq_true', List.contains_eq_mem, decide_eq_false_iff_not]
    exact fun other mem here => Nat.lt_irrefl _ (inside other mem g.size here)
  simp only [spared, activeNodesReplaced, List.filter_append, List.filter_filter, List.all_cons,
    Bool.and_comm, List.filter_cons, fresh, if_true, List.filter_nil]

structure Appends (f : Fusion) (g : Graph) (found : List Match) (last : Graph) : Prop where
  mirrored : g.Mirrored → last.Mirrored
  frame : last.name = g.name ∧ last.externalInputs = g.externalInputs ∧
    last.externalOutputs = g.externalOutputs
  size : last.size = g.size + found.length
  kept : Embeds g last (· < g.size) id
  added : ∃ ops : List Operator, found.map (fun m => f.replacement g m.nodes) = ops.map .ok ∧
    (List.range' g.size found.length).map (fun i => (last.node? i).map Node.op) = ops.map some
  activeNodes : last.activeNodes = spared g found ++ List.range' g.size found.length

theorem appendsOfFuseEach (inside : ∀ m ∈ found, ∀ i ∈ m.nodes, i < g.size)
    (fused : f.fuseEach g found = .ok (last, standing)) : f.Appends g found last := by
  induction found generalizing g standing with
  | nil =>
    cases fused
    exact ⟨id, ⟨rfl, rfl, rfl⟩, rfl, .refl _ _, ⟨[], rfl, rfl⟩, by simp [spared]⟩
  | cons m rest ih =>
    obtain ⟨here, later⟩ := List.forall_mem_cons.mp inside
    obtain ⟨op, standing, asked, following⟩ := replaceEachCons here fused
    have embeds := embedsReplaced g m.nodes op
    have grown := sizeReplaced g m.nodes op
    have appends := ih (fun other mem i member => by have := later other mem i member; omega)
      following
    have kept := appends.kept.mono fun i (low : i < g.size) =>
      (show i < (g.replaced m.nodes op).size by omega)
    obtain ⟨name, inputs, outputs⟩ := appends.frame
    obtain ⟨name', inputs', outputs'⟩ := frameReplaced g m.nodes op
    obtain ⟨ops, asks, stand⟩ := appends.added
    have first : (last.node? g.size).map Node.op = some op := by
      have same := appends.kept.op g.size (by omega)
      rwa [id, opReplaced, if_pos rfl] at same
    -- The members of a later match are as they were, and so is what the fusion makes of them.
    have same : ∀ other ∈ rest, f.replacement g other.nodes =
        f.replacement (g.replaced m.nodes op) other.nodes := by
      intro other mem
      obtain ⟨next, _, found⟩ := List.mem_map.mp (asks ▸ List.mem_map_of_mem mem)
      have inside := later other mem
      exact (replacementKept embeds.symm inside inside found.symm).trans found
    exact {
      mirrored := fun mirrored => appends.mirrored (mirrored.replaced m.nodes op)
      frame := ⟨name.trans name', inputs.trans inputs', outputs.trans outputs'⟩
      size := by rw [appends.size, grown, List.length_cons, Nat.add_assoc, Nat.add_comm 1]
      kept := embeds.trans kept
      added := by
        refine ⟨op :: ops, ?_, ?_⟩
        · rw [List.map_cons, List.map_cons, asked, ← asks, List.map_congr_left same]
        · rw [grown] at stand
          rw [List.length_cons, List.range'_succ, List.map_cons, List.map_cons, first, stand]
      activeNodes := by
        rw [appends.activeNodes, sparedReplaced op later, grown, List.length_cons,
          List.range'_succ, List.append_assoc, List.singleton_append] }

namespace Appends

theorem addedAt (appends : f.Appends g found last) {k : Nat} {m : Match}
    (at_ : found[k]? = some m) : ∃ op, f.replacement g m.nodes = .ok op ∧
      (last.node? (g.size + k)).map Node.op = some op := by
  obtain ⟨ops, asks, stand⟩ := appends.added
  have inside := (List.getElem?_eq_some_iff.mp at_).1
  have asked := congrArg (·[k]?) asks
  have holds := congrArg (·[k]?) stand
  simp only [List.getElem?_map, at_, List.getElem?_range' inside, Option.map_some,
    Nat.one_mul] at asked holds
  obtain ⟨op, here, same⟩ := Option.map_eq_some_iff.mp asked.symm
  rw [here] at holds
  exact ⟨op, same.symm, Option.some.inj holds⟩

theorem rewrites (appends : f.Appends g found last) (mirrored : g.Mirrored) :
    f.Rewrites g found last := by
  obtain ⟨ops, asks, stand⟩ := appends.added
  refine ⟨appends.mirrored mirrored, appends.frame, ops, asks, ?_⟩
  have old : last.opsAt (spared g found) = g.opsAt (spared g found) := opsAtCongr fun i mem =>
    appends.kept.op i (activeInRange (memActiveNodes.mp (List.mem_of_mem_filter mem)))
  have new : last.opsAt (List.range' g.size found.length) = ops := by
    have known := congrArg (List.filterMap id) stand
    rwa [List.filterMap_map, List.filterMap_map, Function.id_comp, Function.id_comp,
      List.filterMap_some] at known
  rw [activeOps, appends.activeNodes, opsAtAppend, old, new]

end Appends

theorem completeOfFound {result : Found} (searched : findMatches g f.rule {} = .ok result) :
    ∀ m ∈ result.found, f.Complete g m.nodes := by
  intro m mem
  obtain ⟨start, _, head⟩ := (afterFindMatches searched).begins m mem
  obtain ⟨seq, valid⟩ := sequenceOfFound searched mem head
  exact ⟨fun k i here => (seq.stepAt here).1, valid, Sequence.ascending seq⟩

theorem runInPlace {result : Found} (mirrored : g.Mirrored)
    (searched : findMatches g f.rule {} = .ok result) :
    ∃ report, ((Pass.mk f.rule {}).run g).report = .ok report ∧
      report.apply.outcomes = result.found.map (Apply.outcomeOf g) ∧
      f.Rewrites g (result.found.filter (Match.isLive g)) ((Pass.mk f.rule {}).run g).graph := by
  have complete := completeOfFound searched
  have inside : ∀ m ∈ result.found, ∀ i ∈ m.nodes, i < g.size := fun m mem =>
    (complete m mem).inside
  obtain ⟨last, standing, fused, run⟩ := continueInPlace (.refl g _) (Nat.le_refl _)
    (fun _ _ _ _ => rfl) inside (findMatchesLegal searched).apart fun m mem =>
      (complete m mem).ready
  have appends := appendsOfFuseEach
    (fun m mem => inside m (List.mem_of_mem_filter mem)) fused
  have found : (Pass.mk f.rule {}).search g = .ok result := by
    rw [Pass.search, searched]
    rfl
  have phase : Apply.applyMatches f.rule result.found g =
      { graph := last, outcomes := result.found.map (Apply.outcomeOf g) } := run 0 []
  unfold Pass.run
  rw [found]
  simp only [phase]
  exact ⟨_, rfl, rfl, appends.rewrites mirrored⟩

end

end Fusion

end OpNet
