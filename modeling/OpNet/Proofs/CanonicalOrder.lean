import OpNet.Proofs.Schedule
import OpNet.Proofs.SoundAdjacency

/-!
The execution order that is written. There may be many orders in which every active node comes after
those it waits for; the scheduler writes the least of them by index. Main statement: on any graph
that edits can reach there is such an order exactly when no active node waits for itself, the least
is written, and the counters of the scheduler run down to zero and no further.
-/
namespace OpNet.Graph

structure ExecutionOrder (g : Graph) (order : List Nat) : Prop where
  nodup : order.Nodup
  active : ∀ i, i ∈ order ↔ g.isActive i = true
  respects : ∀ i j, g.Waits i j → order.idxOf i < order.idxOf j

inductive Runnable (g : Graph) : List Nat → List Nat → Prop where
  | stop {done} : Runnable g done []
  | next {done i rest} (active : g.isActive i = true) (fresh : i ∉ done)
      (free : ∀ j ∈ g.prerequisites i, j ∈ done) (tail : Runnable g (i :: done) rest) :
      Runnable g done (i :: rest)

section
variable {g : Graph} {order other done : List Nat}

theorem ExecutionOrder.runnable (execution : ExecutionOrder g order) (front : List Nat)
    {rest : List Nat} (parts : order = front ++ rest) : Runnable g front.reverse rest := by
  induction rest generalizing front with
  | nil => exact .stop
  | cons i rest ih =>
    have active : g.isActive i = true := (execution.active i).mp (by simp [parts])
    have fresh : i ∉ front := fun old => by
      have nodup := execution.nodup
      rw [parts, List.nodup_append] at nodup
      exact nodup.2.2 i old i List.mem_cons_self rfl
    have place : order.idxOf i = front.length := by
      rw [parts, List.idxOf_append_of_notMem fresh, List.idxOf_cons_self, Nat.add_zero]
    have free : ∀ j ∈ g.prerequisites i, j ∈ front := fun j needed => by
      have less := execution.respects j i (waitsIff.mpr ⟨active, needed⟩)
      rw [place, parts, List.idxOf_append] at less
      split at less
      · assumption
      · omega
    have tail := ih (front ++ [i]) (by simp [parts])
    rw [List.reverse_append, List.reverse_singleton, List.singleton_append] at tail
    exact .next active (by simpa using fresh) (by simpa using free) tail

theorem Schedules.atMost (schedules : Schedules g done order) (runnable : Runnable g done other)
    (all : ∀ i, g.isActive i = true → i ∉ done → i ∈ other) : other = order ∨ order < other := by
  -- The scheduler takes the least free node, so that where another order parts from its own, the
  -- other goes on with a greater one.
  induction schedules generalizing other with
  | stop stuck =>
    cases runnable with
    | stop => exact Or.inl rfl
    | next active fresh free _ =>
      obtain ⟨j, needed, out⟩ := stuck _ active fresh
      exact absurd (free j needed) out
  | @next done i rest active fresh _ least _ ih =>
    cases runnable with
    | stop => simpa using all i active fresh
    | @next _ k others activeK freshK freeK tail =>
      rcases Nat.lt_or_eq_of_le (least k activeK freshK freeK) with less | same
      · exact Or.inr (List.Lex.rel less)
      · subst same
        have later : ∀ j, g.isActive j = true → j ∉ i :: done → j ∈ others := fun j there out => by
          have mem := all j there fun old => out (List.mem_cons_of_mem _ old)
          exact (List.mem_cons.mp mem).resolve_left fun here => out (here ▸ List.mem_cons_self)
        exact (ih tail later).imp (congrArg (i :: ·)) List.Lex.cons

theorem scheduleOfOrder (ok : g.topologicalOrder = .ok order) : g.schedule = order := by
  unfold topologicalOrder at ok
  split at ok
  · exact Except.ok.inj ok
  · cases ok

theorem Mirrored.executionOrder (mirrored : Mirrored g) (ok : g.topologicalOrder = .ok order) :
    ExecutionOrder g order := by
  obtain ⟨perm, respects⟩ := topologicalOrderSound mirrored ok
  exact ⟨perm.nodup_iff.mpr (activeNodesNodup g), fun i => perm.mem_iff.trans memActiveNodes,
    respects⟩

theorem Mirrored.leastOrder (mirrored : Mirrored g) (ok : g.topologicalOrder = .ok order)
    (execution : ExecutionOrder g other) : other = order ∨ order < other := by
  have schedules := mirrored.schedules
  rw [scheduleOfOrder ok] at schedules
  have runnable : Runnable g [] other := execution.runnable [] rfl
  exact schedules.atMost runnable fun i active _ => (execution.active i).mpr active

theorem Mirrored.orderError (mirrored : Mirrored g) (cyclic : ¬ Acyclic g.Waits) :
    g.schedule.length < g.activeCount ∧ g.topologicalOrder =
      .error (Cause.invalidGraph (.cycle g.schedule.length g.activeCount)) := by
  have schedules := mirrored.schedules
  have inside : g.schedule.Subperm g.activeNodes := List.subperm_of_subset schedules.nodup
    fun i mem => memActiveNodes.mpr (schedules.mem i mem).1
  have short : g.schedule.length ≠ g.activeCount := fun all =>
    cyclic ((topologicalOrderOkIff mirrored).mp ⟨g.schedule, if_pos all⟩)
  exact ⟨Nat.lt_of_le_of_ne inside.length_le short, if_neg short⟩

theorem toNetOfOrder (found : g.topologicalOrder = .ok order) :
    g.toNet = .ok
      { name := g.name
        ops := order.filterMap fun i => (g.node? i).map Node.op
        externalInputs := g.externalInputs
        externalOutputs := g.externalOutputs } := by
  unfold toNet
  rw [found]
  rfl

theorem toNetOfError {e : Error} (failed : g.topologicalOrder = .error e) : g.toNet = .error e := by
  unfold toNet
  rw [failed]
  rfl

theorem operatorsOfActive (active : ∀ i ∈ order, g.isActive i = true) :
    (order.filterMap fun i => (g.node? i).map Node.op).map some =
      order.map fun i => (g.node? i).map Node.op := by
  induction order with
  | nil => rfl
  | cons i rest ih =>
    obtain ⟨here, later⟩ := List.forall_mem_cons.mp active
    obtain ⟨node, found⟩ := someNodeIff.mpr (activeInRange here)
    simp only [List.filterMap_cons, List.map_cons, found, Option.map_some, ih later]

end

/-! The counters. -/

namespace Waiting

def lower (w : Waiting) (i : Nat) : Except Nat Waiting :=
  match w.pending[i]? with
  | some (_ + 1) => .ok (w.settle i)
  | _ => .error i

theorem lowerAll {w : Waiting} {nodes : List Nat}
    (enough : ∀ j ∈ nodes, ∃ left, w.pending[j]? = some left ∧ nodes.count j ≤ left) :
    nodes.foldlM lower w = .ok (nodes.foldl settle w) := by
  induction nodes generalizing w with
  | nil => rfl
  | cons i rest ih =>
    obtain ⟨left, found, bound⟩ := enough i List.mem_cons_self
    rw [List.count_cons_self] at bound
    obtain ⟨k, rfl⟩ := Nat.exists_eq_add_of_lt bound
    have step : w.lower i = .ok (w.settle i) := by
      unfold lower
      rw [found]
    rw [List.foldlM_cons, step]
    refine ih fun j mem => ?_
    obtain ⟨before, there, bound⟩ := enough j (List.mem_cons_of_mem _ mem)
    rw [List.count_cons] at bound
    rw [settlePending, there]
    split
    · rename_i same
      subst same
      rw [beq_self_eq_true, if_pos rfl] at bound
      exact ⟨before - 1, rfl, by omega⟩
    · exact ⟨before, rfl, by omega⟩

theorem Tracks.enough {g : Graph} {done rest : List Nat} {w : Waiting} {i : Nat}
    (mirrored : Mirrored g) (tracks : Tracks g done w) (ready : w.ready = i :: rest) :
    ∀ j ∈ g.dependents i, ∃ left, w.pending[j]? = some left ∧ (g.dependents i).count j ≤ left := by
  intro j mem
  obtain ⟨active, fresh, _⟩ := (tracks.ready i).mp (ready ▸ List.mem_cons_self)
  have there : g.isActive j = true := by simpa using (List.mem_filter.mp mem).2
  have split := countFresh fresh (g.prerequisites j)
  have counted := mirrored.countDependents active there
  exact ⟨_, tracks.pending j there, by omega⟩

/-- Runs what is ready until nothing is left, after the nodes that `ran`. The outcome is `none` for a
run without an end, and an error names a node whose counter would have gone below zero. -/
def runAll (w : Waiting) (g : Graph) (ran : List Nat) : Option (Except Nat (List Nat)) :=
  match w.ready with
  | [] => some (.ok ran)
  | i :: rest =>
    match (g.dependents i).foldlM lower { w with ready := rest } with
    | .error j => some (.error j)
    | .ok next => next |>.runAll g (ran ++ [i])
partial_fixpoint

theorem Tracks.runAll {g : Graph} (mirrored : Mirrored g) {done ran : List Nat} {w : Waiting}
    {steps : Nat} (tracks : Tracks g done w)
    (bound : (g.activeNodes.countP fun j => j ∉ done) ≤ steps) :
    w.runAll g ran = some (.ok (ran ++ g.runReady steps w)) := by
  -- By the nodes that are left; each of them runs once.
  induction steps generalizing done ran w with
  | zero =>
    have none : w.ready = [] := List.eq_nil_iff_forall_not_mem.mpr fun i mem => by
      obtain ⟨active, fresh, _⟩ := (tracks.ready i).mp mem
      have all := List.countP_eq_zero.mp (Nat.le_zero.mp bound) i (memActiveNodes.mpr active)
      simp [fresh] at all
    rw [Waiting.runAll, none]
    simp [runReady]
  | succ steps ih =>
    cases ready : w.ready with
    | nil =>
      rw [Waiting.runAll, ready]
      simp [runReady, ready]
    | cons i rest =>
      obtain ⟨active, fresh, _⟩ := (tracks.ready i).mp (ready ▸ List.mem_cons_self)
      have enough := tracks.enough mirrored ready
      have lowered : (g.dependents i).foldlM lower { w with ready := rest } =
          .ok ((g.dependents i).foldl settle { w with ready := rest }) :=
        lowerAll enough
      have fewer : (g.activeNodes.countP fun j => j ∉ i :: done) ≤ steps := by
        have split := countFresh fresh g.activeNodes
        have here := List.count_pos_iff.mpr (memActiveNodes.mpr active)
        omega
      rw [Waiting.runAll, ready]
      simp only [lowered, runReady, ready]
      rw [ih (tracks.step mirrored ready) fewer, List.append_assoc, List.singleton_append]

end Waiting

theorem Mirrored.runAll {g : Graph} (mirrored : Mirrored g) :
    g.waiting.runAll g [] = some (.ok g.schedule) := by
  refine (Waiting.tracksWaiting g).runAll mirrored ?_
  calc (g.activeNodes.countP fun j => j ∉ [])
      ≤ g.activeNodes.length := List.countP_le_length
    _ ≤ (List.range g.size).length := List.length_filter_le _ _
    _ = g.size := List.length_range

/-! Edits keep the name and the external blobs. -/

theorem Change.frame {g h : Graph} (change : Change g h) : h.name = g.name ∧
    h.externalInputs = g.externalInputs ∧ h.externalOutputs = g.externalOutputs := by
  have same : ∀ {h}, SameNodes g h → h.name = g.name ∧
      h.externalInputs = g.externalInputs ∧ h.externalOutputs = g.externalOutputs :=
    fun nodes => ⟨nodes.name, nodes.externalInputs, nodes.externalOutputs⟩
  cases change with
  | withInactive members => exact frameWithInactive g members
  | push op => exact ⟨rfl, rfl, rfl⟩
  | link blob _ _ _ => exact same (.link g _ _ blob)
  | unlink source target => exact same (.unlink g source target)
  | precede _ _ _ => exact same (.precede g _ _)
  | replaced members op => exact frameReplaced g members op
  | setOp i op => exact ⟨rfl, rfl, rfl⟩

theorem frameEdited (g : Graph) (edits : List Edit) : (g.edited edits).name = g.name ∧
    (g.edited edits).externalInputs = g.externalInputs ∧
    (g.edited edits).externalOutputs = g.externalOutputs := by
  induction edits generalizing g with
  | nil => exact ⟨rfl, rfl, rfl⟩
  | cons e rest ih =>
    obtain ⟨name, inputs, outputs⟩ := ih (g.edit e)
    rcases editCases g e with same | change
    · exact ⟨name.trans (congrArg Graph.name same),
        inputs.trans (congrArg Graph.externalInputs same),
        outputs.trans (congrArg Graph.externalOutputs same)⟩
    · obtain ⟨name', inputs', outputs'⟩ := change.frame
      exact ⟨name.trans name', inputs.trans inputs', outputs.trans outputs'⟩

theorem canonicalOrder (origin : Origin) (edits : List Edit) :
    let g := origin.graph.edited edits
    ((∃ order, g.topologicalOrder = .ok order) ↔ Acyclic g.Waits) ∧
    (∀ order, g.topologicalOrder = .ok order →
      g.ExecutionOrder order ∧
      (∀ other, g.ExecutionOrder other → other ≠ order → order < other) ∧
      ∃ out, g.toNet = .ok out ∧
        out.ops.map some = order.map (fun i => (g.node? i).map Node.op) ∧
        out.name = origin.graph.name ∧ out.externalInputs = origin.graph.externalInputs ∧
        out.externalOutputs = origin.graph.externalOutputs) ∧
    (¬ Acyclic g.Waits → ∃ ordered < g.activeCount,
      g.topologicalOrder = .error (Cause.invalidGraph (.cycle ordered g.activeCount)) ∧
      g.toNet = .error (Cause.invalidGraph (.cycle ordered g.activeCount))) ∧
    g.waiting.runAll g [] = some (.ok g.schedule) := by
  intro g
  have mirrored : Mirrored g := (soundEdited (soundOrigin origin) edits).toMirrored
  refine ⟨topologicalOrderOkIff mirrored, fun order ok => ?_, fun cyclic => ?_, mirrored.runAll⟩
  · have execution := mirrored.executionOrder ok
    have ops := operatorsOfActive fun i mem => (execution.active i).mp mem
    exact ⟨execution, fun other another apart => (mirrored.leastOrder ok another).resolve_left apart,
      _, toNetOfOrder ok, ops, frameEdited origin.graph edits⟩
  · obtain ⟨short, failed⟩ := mirrored.orderError cyclic
    exact ⟨_, short, failed, toNetOfError failed⟩

end OpNet.Graph
