import OpNet.Proofs.SoundAdjacency

/-!
What replacing a set of nodes changes. Main statement: on every graph that edits can give, an index
out of range ends the procedure before it has changed anything; otherwise no step fails, and the new
node gets exactly what the members had outside and its operator reads or writes, while all that
stands between old nodes stays as it was.
-/
namespace OpNet.Graph

structure TakesPlace (g h : Graph) (members : List Nat) (op : Operator) : Prop where
  size : h.size = g.size + 1
  name : h.name = g.name
  externalInputs : h.externalInputs = g.externalInputs
  externalOutputs : h.externalOutputs = g.externalOutputs
  newOp : (h.node? g.size).map Node.op = some op
  newActive : h.isActive g.size = true
  parents : ∀ p blob, ⟨p, blob⟩ ∈ h.parents g.size ↔
    (p ∉ members ∧ g.isActive p = true) ∧ (∃ m ∈ members, ⟨p, blob⟩ ∈ g.parents m) ∧
      blob ∈ op.inputs
  children : ∀ c blob, ⟨c, blob⟩ ∈ h.children g.size ↔
    (c ∉ members ∧ g.isActive c = true) ∧ (∃ m ∈ members, ⟨c, blob⟩ ∈ g.children m) ∧
      blob ∈ op.outputs
  runsAfter : ∀ i, i ∈ h.runsAfter g.size ↔
    (i ∉ members ∧ g.isActive i = true) ∧ ∃ m ∈ members, i ∈ g.runsAfter m
  runsBefore : ∀ i, i ∈ h.runsBefore g.size ↔
    (i ∉ members ∧ g.isActive i = true) ∧ ∃ m ∈ members, i ∈ g.runsBefore m
  feeds : ∀ i blob, ⟨g.size, blob⟩ ∈ h.children i ↔ ⟨i, blob⟩ ∈ h.parents g.size
  fed : ∀ i blob, ⟨g.size, blob⟩ ∈ h.parents i ↔ ⟨i, blob⟩ ∈ h.children g.size
  precedes : ∀ i, g.size ∈ h.runsBefore i ↔ i ∈ h.runsAfter g.size
  follows : ∀ i, g.size ∈ h.runsAfter i ↔ i ∈ h.runsBefore g.size
  oldOp : ∀ i < g.size, (h.node? i).map Node.op = (g.node? i).map Node.op
  oldActive : ∀ i < g.size, h.isActive i = true ↔ g.isActive i = true ∧ i ∉ members
  oldParents : ∀ i < g.size, (h.parents i).without g.size = g.parents i
  oldChildren : ∀ i < g.size, (h.children i).without g.size = g.children i
  oldAfter : ∀ i < g.size, (h.runsAfter i).filter (· ≠ g.size) = g.runsAfter i
  oldBefore : ∀ i < g.size, (h.runsBefore i).filter (· ≠ g.size) = g.runsBefore i

theorem filterSame {α : Type} [Ord α] [Std.LawfulEqOrd α] [Std.TransOrd α] {old new : List α}
    {kept : α → Bool} (sortedOld : Ascending.Sorted old) (sortedNew : Ascending.Sorted new)
    (same : ∀ a, kept a = true → (a ∈ new ↔ a ∈ old)) (all : ∀ a ∈ old, kept a = true) :
    new.filter kept = old := by
  refine Ascending.Sorted.ext (List.Pairwise.filter _ sortedNew) sortedOld fun a => ?_
  rw [List.mem_filter]
  exact ⟨fun ⟨mem, here⟩ => (same a here).mp mem,
    fun mem => ⟨(same a (all a mem)).mpr mem, all a mem⟩⟩

section
variable {g : Graph} {members : List Nat} {op : Operator} {i j : Nat} {l : Link}

theorem memChildrenReplaced (mirrored : Mirrored g) : l ∈ (g.replaced members op).children i ↔
    l ∈ g.children i ∨ (i = g.size ∧ l ∈ g.outgoing members ∧ l.label ∈ op.outputs) ∨
    (l.node = g.size ∧ ⟨i, l.label⟩ ∈ g.incoming members ∧ l.label ∈ op.inputs) := by
  obtain ⟨node, label⟩ := l
  rw [(mirrored.replaced members op).links, memParentsReplaced, mirrored.links]
  exact or_congr_right or_comm

theorem memRunsBeforeReplaced (mirrored : Mirrored g) :
    j ∈ (g.replaced members op).runsBefore i ↔ j ∈ g.runsBefore i ∨
      (i = g.size ∧ j ∈ g.later members) ∨ (j = g.size ∧ i ∈ g.earlier members) := by
  rw [(mirrored.replaced members op).orderings, memRunsAfterReplaced, mirrored.orderings]
  exact or_congr_right or_comm

theorem notIncoming (label : String) : ⟨g.size, label⟩ ∉ g.incoming members := fun mem =>
  Nat.lt_irrefl _ (outsideInRange (memIncoming.mp mem).1)

theorem notOutgoing (label : String) : ⟨g.size, label⟩ ∉ g.outgoing members := fun mem =>
  Nat.lt_irrefl _ (outsideInRange (memOutgoing.mp mem).1)

theorem notEarlier : g.size ∉ g.earlier members := fun mem =>
  Nat.lt_irrefl _ (outsideInRange (memEarlier.mp mem).1)

theorem notLater : g.size ∉ g.later members := fun mem =>
  Nat.lt_irrefl _ (outsideInRange (memLater.mp mem).1)

theorem Sound.takesPlace (sound : Sound g) (members : List Nat) (op : Operator) :
    TakesPlace g (g.replaced members op) members op := by
  obtain ⟨noParents, noChildren, noneAfter, noneBefore⟩ := outOfRange (Nat.le_refl g.size)
  have mirrored := sound.toMirrored.replaced members op
  have tidy := (sound.replaced members op).tidy
  obtain ⟨name, externalInputs, externalOutputs⟩ := frameReplaced g members op
  exact {
    size := sizeReplaced g members op
    name
    externalInputs
    externalOutputs
    newOp := by rw [opReplaced, if_pos rfl]
    newActive := by simp [isActiveReplaced]
    parents p blob := by
      simp [memParentsReplaced, noParents, notOutgoing, memIncoming, isOutsideIff, and_assoc]
    children c blob := by
      simp [memChildrenReplaced sound.toMirrored, noChildren, notIncoming, memOutgoing,
        isOutsideIff, and_assoc]
    runsAfter i := by
      simp [memRunsAfterReplaced, noneAfter, notLater, memEarlier, isOutsideIff, and_assoc]
    runsBefore i := by
      simp [memRunsBeforeReplaced sound.toMirrored, noneBefore, notEarlier, memLater,
        isOutsideIff, and_assoc]
    feeds i blob := mirrored.links i g.size blob
    fed i blob := (mirrored.links g.size i blob).symm
    precedes i := mirrored.orderings i g.size
    follows i := (mirrored.orderings g.size i).symm
    oldOp i inside := by rw [opReplaced, if_neg (Nat.ne_of_lt inside)]
    oldActive i inside := by simp [isActiveReplaced, Nat.ne_of_lt inside]
    oldParents i inside := by
      refine filterSame (sound.tidy.parents i) (tidy.parents i) (fun l old => ?_) fun l mem => ?_
      · simp only [decide_eq_true_eq] at old
        simp [memParentsReplaced, old, Nat.ne_of_lt inside]
      · simpa using Nat.ne_of_lt (sound.linkInRange mem).1
    oldChildren i inside := by
      refine filterSame (sound.tidy.children i) (tidy.children i) (fun l old => ?_) fun l mem => ?_
      · simp only [decide_eq_true_eq] at old
        simp [memChildrenReplaced sound.toMirrored, old, Nat.ne_of_lt inside]
      · simpa using Nat.ne_of_lt (sound.linkInRange ((sound.links i l.node l.label).mp mem)).2
    oldAfter i inside := by
      refine filterSame (sound.after i) (mirrored.after i) (fun j old => ?_) fun j mem => ?_
      · simp only [decide_eq_true_eq] at old
        simp [memRunsAfterReplaced, old, Nat.ne_of_lt inside]
      · simpa using Nat.ne_of_lt (sound.orderingInRange mem).1
    oldBefore i inside := by
      refine filterSame (sound.before i) (mirrored.before i) (fun j old => ?_) fun j mem => ?_
      · simp only [decide_eq_true_eq] at old
        simp [memRunsBeforeReplaced sound.toMirrored, old, Nat.ne_of_lt inside]
      · simpa using Nat.ne_of_lt (sound.orderingInRange ((sound.orderings i j).mp mem)).2 }

end

theorem replacesExactly (origin : Origin) (edits : List Edit) (members : List Nat)
    (op : Operator) :
    let g := origin.graph.edited edits
    ((∃ i ∈ members, g.size ≤ i) → ∃ bad ∈ members, g.size ≤ bad ∧
      g.replaceSubgraph members op = .error (Cause.nodeNotFound bad) ∧
      (substitute members op).run.run g = (.error (Cause.nodeNotFound bad), g)) ∧
    ((∀ i ∈ members, i < g.size) → ∃ h, TakesPlace g h members op ∧
      g.replaceSubgraph members op = .ok (h, g.size) ∧
      (substitute members op).run.run g = (.ok g.size, h)) ∧
    ∀ e h, (substitute members op).run.run g = (.error e, h) → h = g := by
  intro g
  have sound : Sound g := soundEdited (soundOrigin origin) edits
  rcases firstOutside g members with inside | ⟨bad, first, mem, out⟩
  · have done := substituteOk sound.toMirrored inside op
    refine ⟨fun ⟨i, mem, out⟩ => absurd (inside i mem) (Nat.not_lt.mpr out), fun _ => ?_,
      fun e h failed => ?_⟩
    · exact ⟨g.replaced members op, sound.takesPlace members op, replaceSubgraphOk inside op, done⟩
    · rw [done] at failed
      cases failed
  · have refused := substituteRefused first op
    refine ⟨fun _ => ⟨bad, mem, out, replaceSubgraphRefused first op, refused⟩,
      fun inside => absurd (inside bad mem) (Nat.not_lt.mpr out), fun e h failed => ?_⟩
    rw [refused] at failed
    cases failed
    rfl

end OpNet.Graph
