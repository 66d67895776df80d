import OpNet.Proofs.Boundary

/-!
The boundary of a set of operators, read off the net. A blob enters where a member reads it and no
member was the last to write it; it leaves where a member writes it and it can be seen outside, as
an external output or by an operator that reads just this write. Main statement: the graph of the
net reports these blobs and no others, each once, in the order in which a walk over the members
comes to them.
-/
namespace OpNet

structure FirstSeen (walk items : List String) : Prop where
  mem : ∀ x, x ∈ items ↔ x ∈ walk
  order : items.Pairwise fun x y => walk.idxOf x < walk.idxOf y

namespace FirstSeen
variable {walk items : List String}

theorem nodup (seen : FirstSeen walk items) : items.Nodup :=
  seen.order.imp fun {y z} less (same : y = z) => Nat.lt_irrefl _ (same ▸ less)

theorem next (seen : FirstSeen walk items) (x : String) :
    FirstSeen (walk ++ [x]) (if x ∈ walk then items else items ++ [x]) := by
  have places : items.Pairwise fun y z => (walk ++ [x]).idxOf y < (walk ++ [x]).idxOf z :=
    seen.order.imp_of_mem fun hy hz less => by
      rwa [List.idxOf_append_of_mem ((seen.mem _).mp hy),
        List.idxOf_append_of_mem ((seen.mem _).mp hz)]
  split
  · rename_i known
    have all : ∀ y, y ∈ items ↔ y ∈ walk ++ [x] := fun y => by
      rw [seen.mem, List.mem_append, List.mem_singleton]
      exact (or_iff_left_of_imp fun same => same ▸ known).symm
    exact ⟨all, places⟩
  · rename_i new
    refine ⟨fun y => by simp [seen.mem], List.pairwise_append.mpr
      ⟨places, List.pairwise_singleton _ _, fun y hy z hz => ?_⟩⟩
    have old := (seen.mem y).mp hy
    rw [List.mem_singleton.mp hz, List.idxOf_append_of_mem old, List.idxOf_append_of_notMem new]
    exact Nat.lt_of_lt_of_le (List.idxOf_lt_length_iff.mpr old) (Nat.le_add_right _ _)

theorem perm {other others : List String} (seen : FirstSeen walk items)
    (again : FirstSeen other others) (same : ∀ x, x ∈ walk ↔ x ∈ other) : items.Perm others :=
  (List.perm_ext_iff_of_nodup seen.nodup again.nodup).mpr fun x =>
    (seen.mem x).trans ((same x).trans (again.mem x).symm)

end FirstSeen

theorem firstSeenOfWalk (walk : List String) : FirstSeen walk (Graph.firstSeen walk) := by
  induction walk using List.reverseRecOn with
  | nil => exact ⟨fun x => Iff.rfl, List.Pairwise.nil⟩
  | append_singleton front x ih =>
    have step : Graph.firstSeen (front ++ [x]) =
        if x ∈ front then Graph.firstSeen front else Graph.firstSeen front ++ [x] := by
      unfold Graph.firstSeen
      rw [List.eraseDups_append]
      by_cases known : x ∈ front
      · simp [List.removeAll, known]
      · simp [List.removeAll, known, List.eraseDups_cons]
    rw [step]
    exact ih.next x

theorem filterIff {xs : List String} {keep : String → Bool} {kept : String → Prop}
    [DecidablePred kept] (same : ∀ x ∈ xs, keep x = true ↔ kept x) :
    xs.filter keep = xs.filter fun x => kept x :=
  List.filter_congr fun x mem => Bool.eq_iff_iff.mpr ((same x mem).trans decide_eq_true_iff.symm)

namespace Net
open OpNet.Graph

variable (net : Net) (members : List Nat)

def FromOutside (m : Nat) (blob : String) : Prop := ∀ w ∈ members, ¬ net.LastWriter blob w m

def SeenOutside (m : Nat) (blob : String) : Prop :=
  blob ∈ net.externalOutputs ∨ ∃ r, r ∉ members ∧ net.Reads r blob ∧ net.LastWriter blob m r

instance (m : Nat) (blob : String) : Decidable (net.FromOutside members m blob) :=
  inferInstanceAs (Decidable (∀ w ∈ members, ¬ net.LastWriter blob w m))

instance (m : Nat) (blob : String) : Decidable (net.SeenOutside members m blob) :=
  decidable_of_iff (blob ∈ net.externalOutputs ∨
      ∃ r < net.ops.length, r ∉ members ∧ net.Reads r blob ∧ net.LastWriter blob m r)
    (or_congr_right (exists_congr fun _ => and_iff_right_of_imp fun found => found.2.1.inRange))

/-- Member by member, the arguments that come from outside. A read that a member feeds is passed
over, so that its blob counts as seen at the first read that none feeds. -/
def walkIn : List String :=
  members.flatMap fun m => (net.inputsAt m).filter fun blob => net.FromOutside members m blob

def walkOut : List String :=
  members.flatMap fun m => (net.outputsAt m).filter fun blob => net.SeenOutside members m blob

variable {net members}

theorem inputsOfNet (net : Net) (i : Nat) : (ofNet net).inputs i = net.inputsAt i := by
  unfold Graph.inputs inputsAt
  rw [← opOfNet]
  cases (ofNet net).node? i <;> rfl

theorem outputsOfNet (net : Net) (i : Nat) : (ofNet net).outputs i = net.outputsAt i := by
  unfold Graph.outputs outputsAt
  rw [← opOfNet]
  cases (ofNet net).node? i <;> rfl

theorem externalOutputsOfNet (net : Net) : (ofNet net).externalOutputs = net.externalOutputs :=
  (sameNodesOfNet net).externalOutputs

theorem fromOutsideIff {m : Nat} {blob : String} (members : List Nat) (reads : net.Reads m blob) :
    (!(ofNet net).suppliedWithin members m blob) = true ↔ net.FromOutside members m blob := by
  simp only [Bool.not_eq_true', ← Bool.not_eq_true, suppliedIff, memParentsOfNet, reads, true_and,
    FromOutside, not_exists, not_and]

theorem seenOutsideIff {m : Nat} {blob : String} (members : List Nat) :
    ((ofNet net).readOutside members m blob || (ofNet net).externalOutputs.contains blob) = true ↔
      net.SeenOutside members m blob := by
  rw [Bool.or_eq_true, readOutsideIff, List.contains_iff_mem, externalOutputsOfNet, or_comm]
  refine or_congr_right (exists_congr fun r => and_congr_right fun _ => ?_)
  rw [(mirroredOfNet net).links, memParentsOfNet, isActiveOfNet]
  exact and_iff_right_of_imp fun found => decide_eq_true found.1.inRange

theorem enteringOfNet (net : Net) (members : List Nat) :
    (ofNet net).entering members = Graph.firstSeen (net.walkIn members) := by
  have same : ∀ m, ((ofNet net).inputs m).filter (fun blob =>
      !(ofNet net).suppliedWithin members m blob) =
        (net.inputsAt m).filter fun blob => net.FromOutside members m blob := fun m => by
    rw [inputsOfNet]
    exact filterIff fun blob mem => fromOutsideIff members (memInputsAt.mp mem)
  simp only [entering, walkIn, same]

theorem leavingOfNet (net : Net) (members : List Nat) :
    (ofNet net).leaving members = Graph.firstSeen (net.walkOut members) := by
  have same : ∀ m, ((ofNet net).outputs m).filter (fun blob =>
      (ofNet net).readOutside members m blob || (ofNet net).externalOutputs.contains blob) =
        (net.outputsAt m).filter fun blob => net.SeenOutside members m blob := fun m => by
    rw [outputsOfNet]
    exact filterIff fun blob _ => seenOutsideIff members
  simp only [leaving, walkOut, same]

theorem memWalkIn {blob : String} : blob ∈ net.walkIn members ↔
    ∃ m ∈ members, net.Reads m blob ∧ net.FromOutside members m blob := by
  simp only [walkIn, List.mem_flatMap, List.mem_filter, memInputsAt, decide_eq_true_eq]

theorem memWalkOut {blob : String} : blob ∈ net.walkOut members ↔
    ∃ m ∈ members, net.Writes m blob ∧ net.SeenOutside members m blob := by
  simp only [walkOut, List.mem_flatMap, List.mem_filter, memOutputsAt, decide_eq_true_eq]

theorem boundaryOk (inside : ∀ i ∈ members, i < net.ops.length) :
    (ofNet net).subgraphInputs members = .ok (Graph.firstSeen (net.walkIn members)) ∧
      (ofNet net).subgraphOutputs members = .ok (Graph.firstSeen (net.walkOut members)) := by
  have known : (ofNet net).inRange members = .ok () := inRangeIff.mpr (by simpa using inside)
  rw [← enteringOfNet, ← leavingOfNet, subgraphInputs, subgraphOutputs, known]
  exact ⟨rfl, rfl⟩

theorem boundaryOfNet (net : Net) (members : List Nat)
    (inside : ∀ i ∈ members, i < net.ops.length) :
    ∃ inputs outputs,
      (ofNet net).subgraphInputs members = .ok inputs ∧
      (ofNet net).subgraphOutputs members = .ok outputs ∧
      (∀ blob, blob ∈ inputs ↔
        ∃ m ∈ members, net.Reads m blob ∧ ∀ w, net.LastWriter blob w m → w ∉ members) ∧
      (∀ blob, blob ∈ outputs ↔
        ∃ m ∈ members, net.Writes m blob ∧ (blob ∈ net.externalOutputs ∨
          ∃ r, r ∉ members ∧ net.Reads r blob ∧ net.LastWriter blob m r)) ∧
      inputs.Nodup ∧ outputs.Nodup ∧
      FirstSeen (net.walkIn members) inputs ∧ FirstSeen (net.walkOut members) outputs ∧
      ∀ others, (∀ i, i ∈ others ↔ i ∈ members) →
        ∃ inputs' outputs', (ofNet net).subgraphInputs others = .ok inputs' ∧
          (ofNet net).subgraphOutputs others = .ok outputs' ∧
          inputs'.Perm inputs ∧ outputs'.Perm outputs := by
  obtain ⟨readIn, writtenOut⟩ := boundaryOk inside
  have seenIn := firstSeenOfWalk (net.walkIn members)
  have seenOut := firstSeenOfWalk (net.walkOut members)
  have outside : ∀ m blob, net.FromOutside members m blob ↔
      ∀ w, net.LastWriter blob w m → w ∉ members := fun m blob =>
    forall_congr' fun w => imp_not_comm
  refine ⟨_, _, readIn, writtenOut, fun blob => ?_, fun blob => ?_, seenIn.nodup, seenOut.nodup,
    seenIn, seenOut, fun others same => ?_⟩
  · simp only [seenIn.mem, memWalkIn, outside]
  · simp only [seenOut.mem, memWalkOut, SeenOutside]
  · obtain ⟨againIn, againOut⟩ := boundaryOk fun i mem => inside i ((same i).mp mem)
    refine ⟨_, _, againIn, againOut, (firstSeenOfWalk _).perm seenIn fun blob => ?_,
      (firstSeenOfWalk _).perm seenOut fun blob => ?_⟩
    · simp only [memWalkIn, FromOutside, same]
    · simp only [memWalkOut, SeenOutside, same]

def twoValues : Net where
  ops :=
    [{ kind := "Fill", outputs := ["A"] },
     { kind := "Relu", inputs := ["A"], outputs := ["B"] },
     { kind := "Fill", outputs := ["A"] },
     { kind := "Sum", inputs := ["B", "A", "W"], outputs := ["C"] },
     { kind := "Pool", inputs := ["C", "A"], outputs := ["A"] }]
  externalOutputs := ["A"]

theorem twoValuesBoundary :
    ∃ inputs outputs,
      (ofNet twoValues).subgraphInputs [3, 0, 1, 3] = .ok inputs ∧
      (ofNet twoValues).subgraphOutputs [3, 0, 1, 3] = .ok outputs ∧
      FirstSeen ["A", "W", "A", "W"] inputs ∧ FirstSeen ["C", "A", "C"] outputs := by
  obtain ⟨inputs, outputs, readIn, writtenOut, _, _, _, _, seenIn, seenOut, _⟩ :=
    boundaryOfNet twoValues [3, 0, 1, 3] (by decide)
  have walkIn : twoValues.walkIn [3, 0, 1, 3] = ["A", "W", "A", "W"] := by decide +kernel
  have walkOut : twoValues.walkOut [3, 0, 1, 3] = ["C", "A", "C"] := by decide +kernel
  exact ⟨inputs, outputs, readIn, writtenOut, walkIn ▸ seenIn, walkOut ▸ seenOut⟩

end Net

end OpNet
