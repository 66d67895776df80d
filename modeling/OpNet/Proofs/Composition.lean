import OpNet.Proofs.ChainsInPlace

/-!
Two passes over one graph, and the same passes with a net written in between. Main statement: the
second pass never fails in place, and where it fuses the same chains, the same operators are left;
which chains it fuses in place is told by the order of the indices and by the inactive nodes.
-/
namespace OpNet.Fusion
open OpNet.Graph Search Net

section
variable {f : Fusion} {g h left right : Graph} {rename : Nat → Nat} {one two : List Match}

structure Corresponds (g h : Graph) (rename : Nat → Nat) (one two : List Match) : Prop where
  renames : Renames g h rename
  live : ∀ m ∈ one, ∀ i ∈ m.nodes, g.isActive i = true
  perm : two.Perm (one.map (renamed rename))

theorem memSpared {i : Nat} : i ∈ spared g one ↔
    g.isActive i = true ∧ ∀ m ∈ one, i ∉ m.nodes := by
  simp [spared, memActiveNodes]

theorem Corresponds.spared (c : Corresponds g h rename one two) :
    (Fusion.spared h two).Perm ((Fusion.spared g one).map rename) := by
  have nodup : ∀ (g : Graph) found, (Fusion.spared g found).Nodup := fun g found =>
    (activeNodesNodup g).filter _
  have embeds := c.renames.embeds
  have distinct : ((Fusion.spared g one).map rename).Nodup :=
    (nodup g one).map_on fun i hi j hj same =>
      embeds.injective i j (memSpared.mp hi).1 (memSpared.mp hj).1 same
  refine (List.perm_ext_iff_of_nodup (nodup h two) distinct).mpr fun y => ?_
  rw [memSpared, List.mem_map]
  constructor
  · intro ⟨active, free⟩
    obtain ⟨i, alive, rfl⟩ := (c.renames.onto y).mp active
    refine ⟨i, memSpared.mpr ⟨alive, fun m mem here => ?_⟩, rfl⟩
    exact free _ (c.perm.mem_iff.mpr (List.mem_map_of_mem mem)) (List.mem_map_of_mem here)
  · intro ⟨i, mem, same⟩
    obtain ⟨alive, free⟩ := memSpared.mp mem
    refine ⟨(c.renames.onto y).mpr ⟨i, alive, same⟩, fun m there here => ?_⟩
    obtain ⟨source, known, rfl⟩ := List.mem_map.mp (c.perm.mem_iff.mp there)
    exact free source known ((embeds.memMap (c.live source known) alive).mp (same ▸ here))

theorem Corresponds.ops (c : Corresponds g h rename one two) (first : f.Rewrites g one left)
    (second : f.Rewrites h two right) : left.activeOps.Perm right.activeOps := by
  obtain ⟨opsLeft, asksLeft, allLeft⟩ := first.ops
  obtain ⟨opsRight, asksRight, allRight⟩ := second.ops
  have kept : h.opsAt ((Fusion.spared g one).map rename) = g.opsAt (Fusion.spared g one) := by
    unfold opsAt
    rw [List.filterMap_map]
    exact List.filterMap_congr fun i mem => c.renames.embeds.op i (memSpared.mp mem).1
  have same : ∀ m ∈ one, f.replacement h (m.nodes.map rename) = f.replacement g m.nodes := by
    intro m mem
    obtain ⟨op, _, found⟩ := List.mem_map.mp (asksLeft ▸ List.mem_map_of_mem mem)
    have live := c.live m mem
    rw [← found]
    exact replacementEmbeds c.renames.embeds live (fun i here =>
      activeInRange ((c.renames.onto _).mpr ⟨i, live i here, rfl⟩)) found.symm
  have written : (opsLeft.map Except.ok : List (Except Error Operator)).Perm
      (opsRight.map Except.ok) := by
    rw [← asksLeft, ← asksRight]
    refine List.Perm.trans (.of_eq ?_) (c.perm.map _).symm
    rw [List.map_map]
    exact List.map_congr_left fun m mem => (same m mem).symm
  have added := (List.map_perm_map_iff fun _ _ => Except.ok.inj).mp written
  have spared := c.spared.filterMap fun i => (h.node? i).map Node.op
  rw [allLeft, allRight, ← kept]
  exact spared.symm.append added

end

section
variable {f : Fusion} {net : Net} {result : Found}

theorem applyInPlace (searched : findMatches (ofNet net) f.rule {} = .ok result) :
    ∃ last, (Pass.mk f.rule {}).applyTo net = last.toNet ∧
      f.Rewrites (ofNet net) result.found last := by
  obtain ⟨report, written, _, rewrites⟩ := runInPlace (mirroredOfNet net) searched
  have live : ∀ m ∈ result.found, m.isLive (ofNet net) = true := fun m mem =>
    Match.liveIff.mpr fun i member => by
      simpa [isActiveOfNet] using (completeOfFound searched m mem).inside i member
  rw [List.filter_eq_self.mpr live] at rewrites
  refine ⟨_, ?_, rewrites⟩
  simp only [Pass.applyTo, Pass.runNet, written, bind, Except.bind]
  cases ((Pass.mk f.rule {}).run (ofNet net)).graph.toNet <;> rfl

end

theorem inPlaceAgrees (f₁ f₂ : Fusion) (net out : Net)
    (ok : (Pass.mk f₁.rule {}).applyTo net = .ok out) :
    let g := ((Pass.mk f₁.rule {}).run (ofNet net)).graph
    let second := (Pass.mk f₂.rule {}).run g
    ∃ order found later report, g.topologicalOrder = .ok order ∧
      (Pass.mk f₂.rule {}).findMatches g = .ok found ∧
      (Pass.mk f₂.rule {}).findMatches (ofNet out) = .ok later ∧
      second.report = .ok report ∧ report.apply.outcomes = found.map (Apply.outcomeOf g) ∧
      (FusesAlike g (order.idxOf ·) found later ↔
        f₂.Undisturbed g (order.idxOf ·) found later) ∧
      (f₂.Aligned g (order.idxOf ·) found → FusesAlike g (order.idxOf ·) found later) ∧
      ∀ here there, second.graph.toNet = .ok here → (Pass.mk f₂.rule {}).applyTo out = .ok there →
        here.name = there.name ∧ here.externalInputs = there.externalInputs ∧
        here.externalOutputs = there.externalOutputs ∧
        (FusesAlike g (order.idxOf ·) found later → here.ops.Perm there.ops) := by
  obtain ⟨first, searched⟩ : ∃ first, findMatches (ofNet net) f₁.rule {} = .ok first :=
    findMatchesOk rfl (ofNet net) f₁.rule
  obtain ⟨g, standing, groups, fused⟩ := fusedOfLegal (findMatchesLegal searched)
  rw [applyToFused searched fused] at ok
  rw [(runFused searched fused).1]
  have c := fused.collapsed
  obtain ⟨order, ordered, _⟩ := toNetOk ok
  have renames := c.renamesExported ordered ok
  obtain ⟨a, left⟩ : ∃ a, findMatches g f₂.rule {} = .ok a := findMatchesOk rfl g f₂.rule
  obtain ⟨b, right⟩ : ∃ b, findMatches (ofNet out) f₂.rule {} = .ok b :=
    findMatchesOk rfl (ofNet out) f₂.rule
  obtain ⟨report, written, outcomes, rewrites⟩ := runInPlace c.mirrored left
  obtain ⟨last, applied, again⟩ := applyInPlace right
  have alikeIff := (fusesAlikeIff renames left right).trans (undisturbedIff renames left right).symm
  refine ⟨order, a.found, b.found, report, ordered, ?_, ?_, written, outcomes, alikeIff,
    fun aligned => alikeIff.mpr (aligned.undisturbed renames right),
    fun here there exported second => ?_⟩
  · simp [Pass.findMatches, Pass.search, left, Except.mapError, Except.map]
  · simp [Pass.findMatches, Pass.search, right, Except.mapError, Except.map]
  rw [applied] at second
  obtain ⟨nameHere, inputsHere, outputsHere, opsHere⟩ := rewrites.exported exported
  obtain ⟨nameThere, inputsThere, outputsThere, opsThere⟩ := again.exported second
  obtain ⟨nameOut, inputsOut, outputsOut⟩ := frameExported ok
  have same := sameNodesOfNet out
  refine ⟨?_, ?_, ?_, fun alike => ?_⟩
  · exact nameHere.trans (nameOut.symm.trans (nameThere.trans same.name).symm)
  · exact inputsHere.trans (inputsOut.symm.trans (inputsThere.trans same.externalInputs).symm)
  · exact outputsHere.trans (outputsOut.symm.trans (outputsThere.trans same.externalOutputs).symm)
  · have corresponds : Corresponds g (ofNet out) (order.idxOf ·)
        (a.found.filter (Match.isLive g)) b.found :=
      ⟨renames, fun m mem => Match.liveIff.mp (List.mem_filter.mp mem).2, alike⟩
    exact (opsHere.trans (corresponds.ops rewrites again)).trans opsThere.symm

def twoPools : Net where
  ops :=
    [{ kind := "Pool", inputs := ["X"], outputs := ["P"] },
     { kind := "Conv", inputs := ["P"], outputs := ["C"] },
     { kind := "Relu", inputs := ["C"], outputs := ["R"] },
     { kind := "Pool", inputs := ["R"], outputs := ["Q"] },
     { kind := "Conv", inputs := ["Q"], outputs := ["D"] },
     { kind := "Relu", inputs := ["D"], outputs := ["S"] }]
  externalInputs := ["X"]
  externalOutputs := ["S"]

def poolConvRelu : Fusion where
  name := "fuse_pool_conv_relu"
  pattern := ["Pool", "ConvRelu"]
  fused := "PoolConvRelu"

theorem twoPoolsAgree :
    ∃ out here there, (Pass.mk convRelu.rule {}).applyTo twoPools = .ok out ∧
      ((Pass.mk poolConvRelu.rule {}).run
        ((Pass.mk convRelu.rule {}).run (ofNet twoPools)).graph).graph.toNet = .ok here ∧
      (Pass.mk poolConvRelu.rule {}).applyTo out = .ok there ∧
      here.name = there.name ∧ here.ops.Perm there.ops := by
  let out : Net := { twoPools with ops :=
    [{ kind := "Pool", inputs := ["X"], outputs := ["P"] },
     { kind := "ConvRelu", inputs := ["P"], outputs := ["R"] },
     { kind := "Pool", inputs := ["R"], outputs := ["Q"] },
     { kind := "ConvRelu", inputs := ["Q"], outputs := ["S"] }] }
  let last : Net := { twoPools with ops :=
    [{ kind := "PoolConvRelu", inputs := ["X"], outputs := ["R"] },
     { kind := "PoolConvRelu", inputs := ["R"], outputs := ["S"] }] }
  let g := ((Pass.mk convRelu.rule {}).run (ofNet twoPools)).graph
  have ok : (Pass.mk convRelu.rule {}).applyTo twoPools = .ok out := by decide +kernel
  have exported : ((Pass.mk poolConvRelu.rule {}).run g).graph.toNet = .ok last := by
    decide +kernel
  have second : (Pass.mk poolConvRelu.rule {}).applyTo out = .ok last := by decide +kernel
  obtain ⟨order, found, _, _, _, matched, _, _, _, _, alike, agrees⟩ :=
    inPlaceAgrees convRelu poolConvRelu twoPools out ok
  have only : (Pass.mk poolConvRelu.rule {}).findMatches g = .ok [⟨[0, 6]⟩, ⟨[3, 7]⟩] := by
    decide +kernel
  cases matched.symm.trans only
  have pairs : ((List.range g.size).flatMap fun x => ((List.range g.size).filter fun y =>
      poolConvRelu.accept g [] x && poolConvRelu.accept g [x] y).map fun y => [x, y]) =
      [[0, 6], [3, 7]] := by decide +kernel
  have chains : ∀ chain, poolConvRelu.Whole g chain → chain = [0, 6] ∨ chain = [3, 7] := by
    intro chain whole
    obtain ⟨x, y, rfl⟩ := List.length_eq_two.mp (show chain.length = 2 from whole.length)
    have insideX := activeInRange (whole.active x (by simp))
    have insideY := activeInRange (whole.active y (by simp))
    have first : poolConvRelu.accept g [] x = true := whole.steps 0 x rfl
    have last : poolConvRelu.accept g [x] y = true := whole.steps 1 y rfl
    have mem : [x, y] ∈ [[0, 6], [3, 7]] := by
      rw [← pairs]
      simp [insideX, insideY, first, last]
    simpa using mem
  have aligned : poolConvRelu.Aligned g (order.idxOf ·) [⟨[0, 6]⟩, ⟨[3, 7]⟩] := by
    refine ⟨fun chain whole => ?_, fun one two first last meets before => ?_,
      fun chain _ m mem mixed => ?_⟩
    · rcases chains chain whole with rfl | rfl <;> decide
    · rcases chains one first with rfl | rfl <;> rcases chains two last with rfl | rfl <;>
        simp_all [Meets, Precedes]
    · have live : m.isLive g = true := by
        rcases List.mem_cons.mp mem with rfl | mem
        · decide +kernel
        · cases List.mem_singleton.mp mem
          decide +kernel
      exact absurd mixed (notMixed live)
  obtain ⟨name, _, _, same⟩ := agrees last last exported second
  exact ⟨out, last, last, ok, exported, second, name, same (alike aligned)⟩

def poolLast : Net where
  ops :=
    [{ kind := "Conv", inputs := ["X"], outputs := ["C"] },
     { kind := "Relu", inputs := ["C"], outputs := ["R"] },
     { kind := "Pool", inputs := ["R"], outputs := ["P"] }]
  externalInputs := ["X"]
  externalOutputs := ["P"]

def convReluPool : Fusion where
  name := "fuse_conv_relu_pool"
  pattern := ["ConvRelu", "Pool"]
  fused := "ConvReluPool"

/-- The first of the two matches that the second fusion could make of `Sum` holds an operator that
the first fusion has taken away. -/
def sumOfTwo : Net where
  ops :=
    [{ kind := "Conv", inputs := ["X"], outputs := ["C"] },
     { kind := "Relu", inputs := ["C"], outputs := ["R"] },
     { kind := "Relu", inputs := ["Y"], outputs := ["S"] },
     { kind := "Sum", inputs := ["R", "S"], outputs := ["T"] }]
  externalInputs := ["X", "Y"]
  externalOutputs := ["T"]

def reluSum : Fusion where
  name := "fuse_relu_sum"
  pattern := ["Relu", "Sum"]
  fused := "ReluSum"

/-- By index the first of two operators that feed the last one stands before the other, but it waits
for an operator that the other does not need. -/
def crossed : Net where
  ops :=
    [{ kind := "Conv", inputs := ["X"], outputs := ["C"] },
     { kind := "Conv", inputs := ["X"], outputs := ["D"] },
     { kind := "Relu", inputs := ["D"], outputs := ["S"] },
     { kind := "Conv", inputs := ["X"], outputs := ["E"] },
     { kind := "Relu", inputs := ["E"], outputs := ["T"] },
     { kind := "Relu", inputs := ["C", "T"], outputs := ["R"] },
     { kind := "Conv", inputs := ["R", "S"], outputs := ["F"] },
     { kind := "Relu", inputs := ["F"], outputs := ["U"] }]
  externalInputs := ["X"]
  externalOutputs := ["T", "U"]

def convReluTwice : Fusion where
  name := "fuse_conv_relu_twice"
  pattern := ["ConvRelu", "ConvRelu"]
  fused := "ConvReluTwice"

def Misses (f₁ f₂ : Fusion) (net : Net) : Prop :=
  ∃ out here there, (Pass.mk f₁.rule {}).applyTo net = .ok out ∧
    ((Pass.mk f₂.rule {}).run ((Pass.mk f₁.rule {}).run (ofNet net)).graph).graph.toNet =
      .ok here ∧
    (Pass.mk f₂.rule {}).applyTo out = .ok there ∧ ¬ here.ops.Perm there.ops

theorem inPlaceMisses : Misses convRelu convReluPool poolLast ∧ Misses convRelu reluSum sumOfTwo ∧
    Misses convRelu convReluTwice crossed := by
  let pooled : Net := { poolLast with ops :=
    [{ kind := "ConvRelu", inputs := ["X"], outputs := ["R"] },
     { kind := "Pool", inputs := ["R"], outputs := ["P"] }] }
  let whole : Net := { poolLast with ops :=
    [{ kind := "ConvReluPool", inputs := ["X"], outputs := ["P"] }] }
  let summed : Net := { sumOfTwo with ops :=
    [{ kind := "Relu", inputs := ["Y"], outputs := ["S"] },
     { kind := "ConvRelu", inputs := ["X"], outputs := ["R"] },
     { kind := "Sum", inputs := ["R", "S"], outputs := ["T"] }] }
  let joined : Net := { sumOfTwo with ops :=
    [{ kind := "ConvRelu", inputs := ["X"], outputs := ["R"] },
     { kind := "ReluSum", inputs := ["Y", "R"], outputs := ["T"] }] }
  let first : Operator := { kind := "ConvRelu", inputs := ["X"], outputs := ["S"] }
  let awaited : Operator := { kind := "ConvRelu", inputs := ["X"], outputs := ["T"] }
  let waiting : Operator := { kind := "ConvRelu", inputs := ["X", "T"], outputs := ["R"] }
  let final : Operator := { kind := "ConvRelu", inputs := ["R", "S"], outputs := ["U"] }
  let byIndex : Operator := { kind := "ConvReluTwice", inputs := ["X", "T", "S"], outputs := ["U"] }
  let byPlace : Operator := { kind := "ConvReluTwice", inputs := ["X", "R"], outputs := ["U"] }
  exact ⟨⟨pooled, pooled, whole, by decide +kernel⟩, ⟨summed, summed, joined, by decide +kernel⟩,
    { crossed with ops := [first, awaited, waiting, final] },
    { crossed with ops := [first, awaited, byIndex] },
    { crossed with ops := [awaited, waiting, byPlace] }, by decide +kernel⟩

end OpNet.Fusion
