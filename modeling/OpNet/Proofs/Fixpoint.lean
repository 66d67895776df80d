import OpNet.Proofs.InPlace
import OpNet.Proofs.ProgramOrder

/-!
A second pass of the same fusion. Main statement: when a fusion does not match operators of the kind
it makes, the net that one pass writes holds no match, and another pass leaves it as it is.
-/
namespace OpNet

theorem Operator.withArgsKind (op : Operator) (entries : List (String × String)) :
    (op.withArgs entries).kind = op.kind := by
  unfold withArgs
  induction entries generalizing op with
  | nil => rfl
  | cons entry rest ih => exact ih (op.withArg entry.1 entry.2)

namespace Fusion
open OpNet.Graph Search Net

section
variable {f : Fusion} {net out : Net} {g last : Graph} {chain : List Nat} {op : Operator}
  {groups : List Group} {standing : List (Nat × List Nat)} {order : List Nat} {x : Nat}

theorem replacementKind (ok : f.replacement g chain = .ok op) : op.kind = f.fused := by
  unfold replacement at ok
  split at ok
  · cases ok
  · obtain ⟨ops, _, ok⟩ := bindOk.mp ok
    split at ok
    · cases ok
    · obtain ⟨inputs, _, ok⟩ := bindOk.mp ok
      cases ok
      exact Operator.withArgsKind _ _

variable {config : Config} {result : Found}

theorem Fused.originals (fused : f.Fused net result.found g standing groups)
    (legal : ∀ m ∈ result.found, ∀ i ∈ m.nodes, i < net.ops.length) (fresh : f.fused ∉ f.pattern)
    (steps : f.Steps g chain) : ∀ i ∈ chain, i < net.ops.length := by
  intro i mem
  obtain ⟨op, found, kind⟩ := kindsOfSteps steps mem
  have appends := appendsOfFuseEach (fun m there i member => by simpa using legal m there i member)
    fused.fused
  by_contra new
  obtain ⟨k, rfl⟩ := Nat.exists_eq_add_of_le (Nat.le_of_not_lt new)
  have inside : net.ops.length + k < g.size := by
    obtain ⟨node, there, _⟩ := Option.map_eq_some_iff.mp found
    exact someNodeIff.mp ⟨node, there⟩
  rw [appends.size, sizeOfNet] at inside
  have here : result.found[k]? = some result.found[k] := List.getElem?_eq_getElem (by omega)
  obtain ⟨made, asked, added⟩ := appends.addedAt here
  rw [sizeOfNet, found] at added
  cases added
  exact fresh (replacementKind asked ▸ kind)

theorem validateFree (c : Collapsed net groups g)
    (all : ∀ i ∈ chain, i < net.ops.length ∧ g.isActive i = true)
    (valid : f.validate g chain = true) : f.validate (ofNet net) chain = true := by
  simp only [validate, Bool.and_eq_true, List.all_eq_true] at valid ⊢
  refine ⟨valid.1, fun w mem => ?_⟩
  have member := List.dropLast_subset _ mem
  obtain ⟨low, active⟩ := all w member
  obtain ⟨_, quiet, hidden⟩ := (privateIff c.mirrored).mp (valid.2 w mem)
  refine (privateIff (mirroredOfNet net)).mpr ⟨by simpa using low, fun i blob there edge => ?_, ?_⟩
  · have own : net.home (groups.map Group.members) w = w :=
      Collapsed.homeOutside ((c.active w).mp active).2
    have less := lessOfBefore (beforeOfParent edge)
    have alive := c.activeHome (inRangeOfBefore (beforeOfParent edge))
    have apart : w ≠ net.home (groups.map Group.members) i := fun same => by
      have := Collapsed.homeOwn (same ▸ low)
      omega
    have found := quiet _ blob alive
      ((c.links blob w _ active alive).mpr ⟨apart, w, i, own, rfl, edge⟩)
    rwa [Collapsed.homeOwn (all _ found).1] at found
  · rw [(sameNodesOfNet net).externalOutputs]
    rw [c.externalOutputs] at hidden
    have outputs := c.embedsFree.outputs (all w member)
    rw [id] at outputs
    rw [outputs]
    exact hidden

theorem noneExported (searched : findMatches (ofNet net) f.rule config = .ok result)
    (fused : f.Fused net result.found g standing groups) (fresh : f.fused ∉ f.pattern)
    (ok : g.topologicalOrder = .ok order) (exported : g.toNet = .ok out) {strategy : Strategy}
    {claimed places : List Nat} {start : Nat}
    (seq : Sequence (ofNet out) f.rule strategy claimed start places) :
    f.validate (ofNet out) places = false := by
  -- A chain of the exported net would have been a chain of the net, with no operator claimed.
  rw [← Bool.not_eq_true]
  intro valid
  have c := fused.collapsed
  have renames := c.renamesExported ok exported
  obtain ⟨chain, rfl, active⟩ := renames.pull fun p mem => by
    simpa [isActiveOfNet] using (seq.free p mem).1
  have steps : f.Steps g chain := (stepsEmbed renames.embeds active).mp fun k i here =>
    (seq.stepAt here).1
  have legal := findMatchesLegal searched
  have low := fused.originals
    (fun m mem => (fusibleMatches legal _ (List.mem_map_of_mem mem)).inRange) fresh steps
  have all : ∀ i ∈ chain, i < net.ops.length ∧ g.isActive i = true := fun i mem =>
    ⟨low i mem, active i mem⟩
  rw [validateRenamed renames active] at valid
  have original : f.Steps (ofNet net) chain := by
    have moved := (stepsEmbed c.embedsFree all).mpr steps
    rwa [List.map_id] at moved
  have some : chain ≠ [] := fun empty => seq.nonempty (by simp [empty])
  obtain ⟨first, rest, rfl⟩ := List.exists_cons_of_ne_nil some
  have again : Sequence (ofNet net) f.rule .unrestricted [] first (first :: rest) :=
    .ofSteps rfl seq.nodup.of_map (fun i mem => ⟨by simpa using low i mem, by simp⟩) original
      fun _ _ _ _ => trivial
  obtain ⟨i, mem, m, there, member⟩ := claimedOfComplete searched (sequenceUnder again _)
    (validateFree c all valid)
  have free := ((c.active i).mp (active i mem)).2
  have claims : m.nodes ∈ groups.map Group.members := fused.members ▸ List.mem_map_of_mem there
  obtain ⟨group, inside, same⟩ := List.mem_map.mp claims
  exact free group inside (same ▸ member)

end

theorem passReachesFixpoint (f : Fusion) (fresh : f.fused ∉ f.pattern)
    (strategy : Option Strategy) (net out : Net)
    (ok : (Pass.mk f.rule { strategy }).applyTo net = .ok out) :
    (Pass.mk f.rule { strategy }).findMatches (ofNet out) = .ok [] ∧
      (Pass.mk f.rule { strategy }).applyTo out = .ok out := by
  obtain ⟨result, searched⟩ : ∃ result, findMatches (ofNet net) f.rule { strategy } = .ok result :=
    findMatchesOk rfl (ofNet net) f.rule
  obtain ⟨g, standing, groups, fused⟩ := fusedOfLegal (findMatchesLegal searched)
  rw [applyToFused searched fused] at ok
  obtain ⟨order, found, _⟩ := toNetOk ok
  obtain ⟨again, second⟩ : ∃ again, findMatches (ofNet out) f.rule { strategy } = .ok again :=
    findMatchesOk rfl (ofNet out) f.rule
  have none : again.found = [] := by
    refine List.eq_nil_iff_forall_not_mem.mpr fun m mem => ?_
    obtain ⟨start, _, head⟩ := (afterFindMatches second).begins m mem
    obtain ⟨seq, valid⟩ := sequenceOfFound second mem head
    have invalid := noneExported searched fused fresh found ok seq
    exact Bool.noConfusion (valid.symm.trans invalid)
  obtain ⟨h, standing', groups', unfused⟩ := fusedOfLegal (findMatchesLegal second)
  have untouched : h = ofNet out := by
    have nothing := unfused.fused
    rw [none] at nothing
    cases nothing
    rfl
  exact ⟨by simp [Pass.findMatches, Pass.search, second, none, Except.mapError, Except.map],
    by rw [applyToFused second unfused, untouched, toNetOfNet]⟩

theorem overwrittenInputFixpoint :
    convRelu.fused ∉ convRelu.pattern ∧
      (Pass.mk convRelu.rule {}).applyTo overwrittenInput = .ok overwrittenInputFused ∧
      (Pass.mk convRelu.rule {}).findMatches (ofNet overwrittenInputFused) = .ok [] ∧
      (Pass.mk convRelu.rule {}).applyTo overwrittenInputFused = .ok overwrittenInputFused := by
  have fresh : convRelu.fused ∉ convRelu.pattern := by decide
  have ok : (Pass.mk convRelu.rule {}).applyTo overwrittenInput = .ok overwrittenInputFused := rfl
  exact ⟨fresh, ok,
    passReachesFixpoint convRelu fresh none overwrittenInput overwrittenInputFused ok⟩

end Fusion

end OpNet
