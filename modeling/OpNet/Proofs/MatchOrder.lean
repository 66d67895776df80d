import OpNet.Proofs.FusedNodes

/-!
The order in which a fusion rewrites its matches. Main statement: any other order rewrites all of
them too; it leaves the same graph up to the numbers of the added nodes, and a net with the same
operators, or in no order any net at all.
-/
namespace OpNet

theorem Contracts.renamed {home home' : Nat → Nat} {live live' : Nat → Prop}
    {old new new' : Nat → Nat → Prop} {rename : Nat → Nat} {x y : Nat}
    (one : Contracts home live old new) (two : Contracts home' live' old new')
    (injective : rename.Injective)
    (homes : ∀ i j, old i j → home' i = rename (home i) ∧ home' j = rename (home j))
    (hx : live x) (hy : live y) (hx' : live' (rename x)) (hy' : live' (rename y)) :
    new' (rename x) (rename y) ↔ new x y := by
  rw [one x y hx hy, two _ _ hx' hy']
  refine and_congr injective.ne_iff (exists_congr fun i => exists_congr fun j => ?_)
  rw [← and_assoc, ← and_assoc]
  refine and_congr_left fun edge => ?_
  obtain ⟨first, last⟩ := homes i j edge
  rw [first, last, injective.eq_iff, injective.eq_iff]

namespace Graph

/-- `h` is `g` with every node renamed, except that edges of inactive nodes may differ. -/
structure Relabels (g h : Graph) (rename : Equiv.Perm Nat) : Prop where
  size : h.size = g.size
  frame : h.name = g.name ∧ h.externalInputs = g.externalInputs ∧
    h.externalOutputs = g.externalOutputs
  op : ∀ i, (h.node? (rename i)).map Node.op = (g.node? i).map Node.op
  active : ∀ i, h.isActive (rename i) = g.isActive i
  parents : ∀ i j blob, g.isActive i = true → g.isActive j = true →
    (⟨rename i, blob⟩ ∈ h.parents (rename j) ↔ ⟨i, blob⟩ ∈ g.parents j)
  children : ∀ i j blob, g.isActive i = true → g.isActive j = true →
    (⟨rename j, blob⟩ ∈ h.children (rename i) ↔ ⟨j, blob⟩ ∈ g.children i)
  runsAfter : ∀ i j, g.isActive i = true → g.isActive j = true →
    (rename i ∈ h.runsAfter (rename j) ↔ i ∈ g.runsAfter j)
  runsBefore : ∀ i j, g.isActive i = true → g.isActive j = true →
    (rename j ∈ h.runsBefore (rename i) ↔ j ∈ g.runsBefore i)

namespace Relabels
variable {g h : Graph} {rename : Equiv.Perm Nat}

theorem waits (relabels : Relabels g h rename) (i j : Nat) :
    h.Waits (rename i) (rename j) ↔ g.Waits i j := by
  simp only [Waits, relabels.active]
  refine and_congr_right fun hi => and_congr_right fun hj => ?_
  simp only [Before, Links.memNodes, relabels.parents i j _ hi hj, relabels.runsAfter i j hi hj]

theorem acyclicIff (relabels : Relabels g h rename) : Acyclic h.Waits ↔ Acyclic g.Waits := by
  constructor
  · intro acyclic i cycle
    exact acyclic (rename i) (cycle.lift rename fun a b => (relabels.waits a b).mpr)
  · intro acyclic i cycle
    refine acyclic (rename.symm i) (cycle.lift rename.symm fun a b waits => ?_)
    refine (relabels.waits _ _).mp ?_
    rwa [Equiv.apply_symm_apply, Equiv.apply_symm_apply]

theorem activeOps (relabels : Relabels g h rename) : h.activeOps.Perm g.activeOps := by
  have nodes : h.activeNodes.Perm (g.activeNodes.map rename) := by
    refine (List.perm_ext_iff_of_nodup (activeNodesNodup h)
      ((activeNodesNodup g).map rename.injective)).mpr fun i => ?_
    rw [memActiveNodes, ← rename.apply_symm_apply i, relabels.active,
      List.mem_map_of_injective rename.injective, memActiveNodes]
  refine (nodes.filterMap _).trans (List.Perm.of_eq ?_)
  rw [List.filterMap_map]
  exact List.filterMap_congr fun i _ => relabels.op i

theorem exported (relabels : Relabels g h rename) (left : g.Mirrored) (right : h.Mirrored) :
    (∃ one two, g.toNet = .ok one ∧ h.toNet = .ok two ∧ two.name = one.name ∧
      two.externalInputs = one.externalInputs ∧ two.externalOutputs = one.externalOutputs ∧
      two.ops.Perm one.ops) ∨
    (∃ e, g.toNet = .error e) ∧ ∃ e, h.toNet = .error e := by
  have alike : (∃ two, h.toNet = .ok two) ↔ ∃ one, g.toNet = .ok one := by
    rw [toNetOkIff, toNetOkIff, topologicalOrderOkIff left, topologicalOrderOkIff right,
      relabels.acyclicIff]
  cases ok : g.toNet with
  | ok one =>
    obtain ⟨two, other⟩ := alike.mpr ⟨one, ok⟩
    obtain ⟨name, inputs, outputs⟩ := frameExported ok
    obtain ⟨name', inputs', outputs'⟩ := frameExported other
    obtain ⟨sameName, sameInputs, sameOutputs⟩ := relabels.frame
    have ops := (right.exportedPerm other).trans
      (relabels.activeOps.trans (left.exportedPerm ok).symm)
    exact Or.inl ⟨one, two, rfl, other, by rw [name, name', sameName],
      by rw [inputs, inputs', sameInputs], by rw [outputs, outputs', sameOutputs], ops⟩
  | error e =>
    refine Or.inr ⟨⟨e, rfl⟩, ?_⟩
    cases other : h.toNet with
    | ok two =>
      obtain ⟨one, exported⟩ := alike.mp ⟨two, other⟩
      rw [ok] at exported
      cases exported
    | error e' => exact ⟨e', rfl⟩

end Relabels

end Graph

namespace Fusion
open OpNet.Graph Search Net

def relabel (first : Nat) (one two : List Match) (i : Nat) : Nat :=
  if i < first then i
  else
    match one[i - first]? with
    | some m => first + two.idxOf m
    | none => i

section
variable {first k l i : Nat} {one two : List Match} {m : Match}

theorem relabelLow (low : i < first) : relabel first one two i = i := if_pos low

theorem relabelHigh (high : first + one.length ≤ i) : relabel first one two i = i := by
  rw [relabel, if_neg (by omega), List.getElem?_eq_none (by omega)]

theorem relabelAt (distinct : two.Nodup) (here : one[k]? = some m) (there : two[l]? = some m) :
    relabel first one two (first + k) = first + l := by
  obtain ⟨inside, rfl⟩ := List.getElem?_eq_some_iff.mp there
  rw [relabel, if_neg (by omega), Nat.add_sub_cancel_left, here]
  exact congrArg (first + ·) (distinct.idxOf_getElem l inside)

theorem relabelCases (distinct : two.Nodup) (perm : two.Perm one) (first i : Nat) :
    (i < first ∧ relabel first one two i = i) ∨
    (∃ k l m, one[k]? = some m ∧ two[l]? = some m ∧ i = first + k ∧
      relabel first one two i = first + l) ∨
    (first + one.length ≤ i ∧ relabel first one two i = i) := by
  by_cases low : i < first
  · exact Or.inl ⟨low, relabelLow low⟩
  by_cases high : first + one.length ≤ i
  · exact Or.inr (Or.inr ⟨high, relabelHigh high⟩)
  obtain ⟨k, rfl⟩ := Nat.exists_eq_add_of_le (Nat.le_of_not_lt low)
  have here : one[k]? = some one[k] := List.getElem?_eq_getElem (by omega)
  obtain ⟨l, there⟩ := List.mem_iff_getElem?.mp (perm.mem_iff.mpr (List.mem_of_getElem? here))
  exact Or.inr (Or.inl ⟨k, l, _, here, there, rfl, relabelAt distinct here there⟩)

theorem relabelBack (left : one.Nodup) (right : two.Nodup) (perm : two.Perm one) (first i : Nat) :
    relabel first two one (relabel first one two i) = i := by
  rcases relabelCases right perm first i with ⟨low, same⟩ | ⟨k, l, m, here, there, rfl, same⟩ |
    ⟨high, same⟩
  · rw [same, relabelLow low]
  · rw [same, relabelAt left there here]
  · rw [same, relabelHigh (perm.length_eq ▸ high)]

def relabeling (first : Nat) (left : one.Nodup) (right : two.Nodup) (perm : two.Perm one) :
    Equiv.Perm Nat where
  toFun := relabel first one two
  invFun := relabel first two one
  left_inv := relabelBack left right perm first
  right_inv := relabelBack right left perm.symm first

end

section
variable {f : Fusion} {net : Net} {one two : List Match} {g h : Graph}
  {standing standing' : List (Nat × List Nat)} {groups groups' : List Group}

namespace Chains

theorem nodup (chains : f.Chains net one) : one.Nodup := by
  refine chains.apart.imp_of_mem fun {m n} mem _ apart same => ?_
  subst same
  obtain ⟨i, here⟩ := List.exists_mem_of_ne_nil _ (chains.fusible m mem).nonempty
  exact apart i here here

theorem permuted (chains : f.Chains net one) (perm : two.Perm one) : f.Chains net two where
  fusible m mem := chains.fusible m (perm.mem_iff.mp mem)
  apart := chains.apart.perm perm.symm fun apart i here there => apart i there here

theorem home (chains : f.Chains net two) (perm : two.Perm one) {i : Nat}
    (inside : i < net.ops.length) : net.home (two.map Match.nodes) i =
      relabel net.ops.length one two (net.home (one.map Match.nodes) i) := by
  rcases homeCases net (one.map Match.nodes) i with ⟨free, same⟩ | ⟨k, chain, at_, mem, same⟩
  · rw [same, relabelLow inside]
    exact homeFree fun chain mem => free chain ((perm.map Match.nodes).mem_iff.mp mem)
  · rw [List.getElem?_map] at at_
    obtain ⟨m, here, rfl⟩ := Option.map_eq_some_iff.mp at_
    obtain ⟨l, there⟩ := List.mem_iff_getElem?.mp (perm.mem_iff.mpr (List.mem_of_getElem? here))
    rw [same, relabelAt chains.nodup here there]
    exact chains.separate.home (by rw [List.getElem?_map, there]; rfl) mem

end Chains

namespace Fused

theorem activeIff (fused : f.Fused net one g standing groups) {i : Nat} :
    g.isActive i = true ↔ i < net.ops.length + one.length ∧ ∀ m ∈ one, i ∉ m.nodes := by
  have length := congrArg List.length fused.members
  rw [List.length_map, List.length_map] at length
  rw [fused.collapsed.active, fused.collapsed.size, length]
  refine and_congr_right fun _ => ?_
  have each : (∀ set ∈ groups.map Group.members, i ∉ set) ↔ ∀ set ∈ one.map Match.nodes, i ∉ set :=
    by rw [fused.members]
  rwa [List.forall_mem_map, List.forall_mem_map] at each

section
variable (left : f.Fused net one g standing groups) (right : f.Fused net two h standing' groups')
  (chains : f.Chains net one) (perm : two.Perm one)
include left right chains perm

theorem activeRelabeled (i : Nat) :
    h.isActive (relabel net.ops.length one two i) = g.isActive i := by
  have chains' := chains.permuted perm
  have below : ∀ {k : Nat}, ∀ m ∈ one, net.ops.length + k ∉ m.nodes := fun m mem member => by
    have := (chains.fusible m mem).inRange _ member
    omega
  have free : ∀ i, (∀ m ∈ two, i ∉ m.nodes) ↔ ∀ m ∈ one, i ∉ m.nodes := fun i =>
    forall_congr' fun m => by rw [perm.mem_iff]
  rw [Bool.eq_iff_iff, left.activeIff, right.activeIff, perm.length_eq, free]
  rcases relabelCases chains'.nodup perm net.ops.length i with ⟨_, same⟩ |
    ⟨k, l, m, here, there, rfl, same⟩ | ⟨_, same⟩
  · rw [same]
  · have insideK := (List.getElem?_eq_some_iff.mp here).1
    have insideL := (List.getElem?_eq_some_iff.mp there).1
    have length := perm.length_eq
    rw [same]
    exact iff_of_true ⟨by omega, below⟩ ⟨by omega, below⟩
  · rw [same]

theorem opRelabeled (i : Nat) : (h.node? (relabel net.ops.length one two i)).map Node.op =
    (g.node? i).map Node.op := by
  have chains' := chains.permuted perm
  have appends := appendsOfFuseEach chains.inside left.fused
  have appends' := appendsOfFuseEach chains'.inside right.fused
  have size := appends.size
  have size' := appends'.size
  rw [sizeOfNet] at size size'
  rcases relabelCases chains'.nodup perm net.ops.length i with ⟨low, same⟩ |
    ⟨k, l, m, here, there, rfl, same⟩ | ⟨high, same⟩
  · rw [same]
    have bound : i < (ofNet net).size := by rwa [sizeOfNet]
    exact (appends'.kept.op i bound).trans (appends.kept.op i bound).symm
  · obtain ⟨op, made, holds⟩ := appends.addedAt here
    obtain ⟨op', made', holds'⟩ := appends'.addedAt there
    rw [sizeOfNet] at holds holds'
    rw [same, holds, holds', Except.ok.inj (made.symm.trans made')]
  · have length := perm.length_eq
    rw [same, noNodeIff.mpr (show h.size ≤ i by omega), noNodeIff.mpr (show g.size ≤ i by omega)]

theorem relabels : Relabels g h
    (relabeling net.ops.length chains.nodup (chains.permuted perm).nodup perm) := by
  have chains' := chains.permuted perm
  have active := left.activeRelabeled right chains perm
  have c := left.collapsed
  have c' := right.collapsed
  have appends := appendsOfFuseEach chains.inside left.fused
  have appends' := appendsOfFuseEach chains'.inside right.fused
  have frame := appends.frame
  have frame' := appends'.frame
  have injective := (relabeling net.ops.length chains.nodup chains'.nodup perm).injective
  have homes : ∀ i j, (ofNet net).Before i j →
      net.home (groups'.map Group.members) i =
        relabel net.ops.length one two (net.home (groups.map Group.members) i) ∧
      net.home (groups'.map Group.members) j =
        relabel net.ops.length one two (net.home (groups.map Group.members) j) := by
    intro i j before
    have less := lessOfBefore before
    have top := inRangeOfBefore before
    rw [left.members, right.members]
    exact ⟨chains'.home perm (by omega), chains'.home perm top⟩
  have alive : ∀ i, g.isActive i = true →
      h.isActive (relabel net.ops.length one two i) = true := fun i there =>
    (active i).trans there
  have links : ∀ i j blob, g.isActive i = true → g.isActive j = true → _ :=
    fun i j blob hi hj => (c.links blob).renamed (c'.links blob) injective
      (fun a b edge => homes a b (beforeOfParent edge)) hi hj (alive i hi) (alive j hj)
  have orderings : ∀ i j, g.isActive i = true → g.isActive j = true → _ :=
    fun i j hi hj => c.orderings.renamed c'.orderings injective
      (fun a b edge => homes a b (Or.inr edge)) hi hj (alive i hi) (alive j hj)
  exact {
    size := by rw [appends.size, appends'.size, perm.length_eq]
    frame := ⟨frame'.1.trans frame.1.symm, frame'.2.1.trans frame.2.1.symm,
      frame'.2.2.trans frame.2.2.symm⟩
    op := left.opRelabeled right chains perm
    active := active
    parents := links
    children := fun i j blob hi hj => by
      rw [c.mirrored.links, c'.mirrored.links]
      exact links i j blob hi hj
    runsAfter := orderings
    runsBefore := fun i j hi hj => by
      rw [c.mirrored.orderings, c'.mirrored.orderings]
      exact orderings i j hi hj }

end

end Fused

end

theorem anyOrderAlike (f : Fusion) (config : Config) (net : Net) {result : Found}
    (searched : findMatches (ofNet net) f.rule config = .ok result) {permuted : List Match}
    (perm : permuted.Perm result.found) :
    let first := Apply.applyMatches f.rule result.found (ofNet net)
    let last := Apply.applyMatches f.rule permuted (ofNet net)
    last.report = .ok { outcomes := permuted.map fun m => .applied m.nodes } ∧
    (∃ rename : Equiv.Perm Nat, (∀ i < net.ops.length, rename i = i) ∧
      (∀ (k l : Nat) (m : Match), result.found[k]? = some m → permuted[l]? = some m →
        rename (net.ops.length + k) = net.ops.length + l) ∧
      Relabels first.graph last.graph rename) ∧
    ((∃ one two, first.graph.toNet = .ok one ∧ last.graph.toNet = .ok two ∧
        two.name = one.name ∧ two.externalInputs = one.externalInputs ∧
        two.externalOutputs = one.externalOutputs ∧ two.ops.Perm one.ops) ∨
      (∃ e, first.graph.toNet = .error e) ∧ ∃ e, last.graph.toNet = .error e) := by
  intro first last
  have chains := chainsOfLegal (findMatchesLegal searched)
  have chains' := chains.permuted perm
  obtain ⟨g, standing, groups, left⟩ := chains.fused
  obtain ⟨h, standing', groups', right⟩ := chains'.fused
  have relabels := left.relabels right chains perm
  simp only [first, last, left.applied, right.applied]
  refine ⟨rfl, ⟨_, fun i low => relabelLow low, fun k l m here there => ?_, relabels⟩, ?_⟩
  · exact relabelAt chains'.nodup here there
  · exact relabels.exported left.collapsed.mirrored right.collapsed.mirrored

def adjacentChains : Net where
  ops :=
    [{ kind := "Conv", inputs := ["X"], outputs := ["C"] },
     { kind := "Relu", inputs := ["C"], outputs := ["R"] },
     { kind := "Conv", inputs := ["R"], outputs := ["D"] },
     { kind := "Relu", inputs := ["D"], outputs := ["S"] }]
  externalInputs := ["X"]
  externalOutputs := ["S"]

def adjacentFound : Found where
  found := [⟨[0, 1]⟩, ⟨[2, 3]⟩]
  stats := { expansions := 4, tried := 8, accepted := 4 }

theorem adjacentChainsAnyOrder :
    findMatches (ofNet adjacentChains) convRelu.rule {} = .ok adjacentFound ∧
      adjacentFound.found.reverse.Perm adjacentFound.found ∧
      ∃ rename : Equiv.Perm Nat, rename 4 = 5 ∧ rename 5 = 4 ∧
        Relabels (Apply.applyMatches convRelu.rule adjacentFound.found (ofNet adjacentChains)).graph
          (Apply.applyMatches convRelu.rule adjacentFound.found.reverse
            (ofNet adjacentChains)).graph rename := by
  have searched : findMatches (ofNet adjacentChains) convRelu.rule {} = .ok adjacentFound := by
    decide +kernel
  have perm := adjacentFound.found.reverse_perm
  obtain ⟨_, ⟨rename, _, sent, relabels⟩, _⟩ :=
    anyOrderAlike convRelu {} adjacentChains searched perm
  exact ⟨searched, perm, rename, sent 0 1 ⟨[0, 1]⟩ rfl rfl, sent 1 0 ⟨[2, 3]⟩ rfl rfl, relabels⟩

end Fusion

end OpNet
