import OpNet.Graph.Order
import OpNet.Proofs.Adjacency
import Mathlib.Data.Fintype.EquivFin
import Mathlib.Logic.Relation

/-!
Execution order of a graph whose adjacency is mirrored. `Schedules` says which lists the scheduler
may write: at each step the least node whose active prerequisites have all run. Main statements: a
topological order lists the active nodes, each after those it waits for; and there is one exactly
when no active node waits for itself through others.
-/
namespace OpNet

def Acyclic (before : Nat → Nat → Prop) : Prop := ∀ i, ¬ Relation.TransGen before i i

theorem pathOrdered {order : List Nat} {before : Nat → Nat → Prop} {i j : Nat}
    (respects : ∀ i j, before i j → order.idxOf i < order.idxOf j)
    (path : Relation.TransGen before i j) : order.idxOf i < order.idxOf j := by
  induction path with
  | single edge => exact respects _ _ edge
  | tail _ edge ih => exact Nat.lt_trans ih (respects _ _ edge)

theorem Acyclic.noneStuck {before : Nat → Nat → Prop} (acyclic : Acyclic before) {n : Nat}
    {stuck : Nat → Prop} (bounded : ∀ i, stuck i → i < n)
    (back : ∀ i, stuck i → ∃ j, stuck j ∧ before j i) (i : Nat) : ¬ stuck i := by
  -- Walking back from a node of a finite set without ever leaving it ends in a cycle.
  -- Paths order finitely many nodes strictly, so there is no walking back for ever.
  let path : Fin n → Fin n → Prop := fun a b => Relation.TransGen before a b
  have trans : IsTrans (Fin n) path := ⟨fun _ _ _ ab bc => Relation.TransGen.trans ab bc⟩
  have irrefl : Std.Irrefl path := ⟨fun a => acyclic a⟩
  have founded : WellFounded path := Finite.wellFounded_of_trans_of_irrefl path
  have none : ∀ a : Fin n, ¬ stuck a := fun a => by
    induction a using founded.induction with
    | _ a ih =>
      intro here
      obtain ⟨j, there, edge⟩ := back a here
      exact ih ⟨j, bounded j there⟩ (Relation.TransGen.single edge) there
  exact fun here => none ⟨i, bounded i here⟩ here

namespace Graph

def Before (g : Graph) (i j : Nat) : Prop := i ∈ (g.parents j).nodes ∨ i ∈ g.runsAfter j

instance (g : Graph) (i j : Nat) : Decidable (g.Before i j) :=
  inferInstanceAs (Decidable (_ ∨ _))

def Waits (g : Graph) (i j : Nat) : Prop :=
  g.isActive i = true ∧ g.isActive j = true ∧ g.Before i j

theorem memPrerequisites {g : Graph} {i j : Nat} :
    i ∈ g.prerequisites j ↔ g.Before i j ∧ g.isActive i = true := by
  simp only [prerequisites, Before, List.mem_filter, List.mem_append]

theorem waitsIff {g : Graph} {i j : Nat} :
    g.Waits i j ↔ g.isActive j = true ∧ i ∈ g.prerequisites j := by
  rw [memPrerequisites, Waits, and_left_comm, and_comm (b := g.Before i j)]

theorem activeNodesNodup (g : Graph) : g.activeNodes.Nodup := List.nodup_range.filter _

theorem Mirrored.countDependents {g : Graph} (mirrored : Mirrored g) {i j : Nat}
    (hi : g.isActive i = true) (hj : g.isActive j = true) :
    (g.dependents i).count j = (g.prerequisites j).count i := by
  have links : j ∈ (g.children i).nodes ↔ i ∈ (g.parents j).nodes := by
    simp only [Links.memNodes, mirrored.links]
  have nodes : ∀ links : Links, links.nodes.Nodup := fun links =>
    (Ascending.sortedOfList _).nodup
  unfold dependents prerequisites
  rw [List.count_filter hj, List.count_filter hi, List.count_append, List.count_append,
    (nodes _).count, (nodes _).count, (mirrored.before i).nodup.count,
    (mirrored.after j).nodup.count]
  simp only [links, mirrored.orderings]

inductive Schedules (g : Graph) : List Nat → List Nat → Prop where
  | stop {done}
      (stuck : ∀ i, g.isActive i = true → i ∉ done → ∃ j ∈ g.prerequisites i, j ∉ done) :
      Schedules g done []
  | next {done i rest} (active : g.isActive i = true) (fresh : i ∉ done)
      (free : ∀ j ∈ g.prerequisites i, j ∈ done)
      (least : ∀ k, g.isActive k = true → k ∉ done → (∀ j ∈ g.prerequisites k, j ∈ done) → i ≤ k)
      (tail : Schedules g (i :: done) rest) : Schedules g done (i :: rest)

namespace Schedules
variable {g : Graph} {done order : List Nat}

theorem mem (schedules : Schedules g done order) :
    ∀ i ∈ order, g.isActive i = true ∧ i ∉ done := by
  induction schedules with
  | stop => simp
  | next active fresh _ _ _ ih =>
    intro k mem
    rcases List.mem_cons.mp mem with rfl | later
    · exact ⟨active, fresh⟩
    · exact ⟨(ih k later).1, fun old => (ih k later).2 (List.mem_cons_of_mem _ old)⟩

theorem nodup (schedules : Schedules g done order) : order.Nodup := by
  induction schedules with
  | stop => exact List.nodup_nil
  | next _ _ _ _ tail ih =>
    exact List.nodup_cons.mpr ⟨fun again => (tail.mem _ again).2 List.mem_cons_self, ih⟩

theorem respects (schedules : Schedules g done order) {i j : Nat} (mem : j ∈ order)
    (needed : i ∈ g.prerequisites j) (fresh : i ∉ done) : order.idxOf i < order.idxOf j := by
  induction schedules with
  | stop => simp at mem
  | @next done head rest _ _ free _ _ ih =>
    by_cases atHead : j = head
    · subst atHead
      exact absurd (free i needed) fresh
    · have later : j ∈ rest := (List.mem_cons.mp mem).resolve_left atHead
      rw [List.idxOf_cons_ne rest (Ne.symm atHead)]
      by_cases first : i = head
      · subst first
        simp
      · rw [List.idxOf_cons_ne rest (Ne.symm first)]
        have := ih later (by simp [first, fresh])
        omega

theorem leftOut (schedules : Schedules g done order) {i : Nat} (active : g.isActive i = true)
    (fresh : i ∉ done) (out : i ∉ order) : ∃ j ∈ g.prerequisites i, j ∉ done ∧ j ∉ order := by
  induction schedules with
  | stop stuck => simpa using stuck i active fresh
  | @next done head rest _ _ _ _ _ ih =>
    simp only [List.mem_cons, not_or] at out ih ⊢
    obtain ⟨j, needed, ⟨different, old⟩, later⟩ := ih ⟨out.1, fresh⟩ out.2
    exact ⟨j, needed, old, different, later⟩

end Schedules

namespace Waiting

theorem settlePending (w : Waiting) (i j : Nat) :
    (w.settle i).pending[j]? = if j = i then w.pending[j]?.map (· - 1) else w.pending[j]? := by
  have lowered : ∀ left, w.pending[i]? = some left →
      (w.pending.set! i (left - 1))[j]? =
        if j = i then w.pending[j]?.map (· - 1) else w.pending[j]? := fun left found => by
    by_cases same : j = i
    · subst same
      rw [found]
      simp [(Array.getElem?_eq_some_iff.mp found).1]
    · simp [same, Ne.symm same]
  unfold settle
  split
  · rename_i found
    exact lowered 1 found
  · rename_i left _ found
    exact lowered left found
  · rename_i found
    by_cases same : j = i
    · subst same
      simp [found]
    · simp [same]

theorem memSettleReady {w : Waiting} {i j : Nat} :
    j ∈ (w.settle i).ready ↔ j ∈ w.ready ∨ (j = i ∧ w.pending[i]? = some 1) := by
  unfold settle
  split
  · rename_i found
    simp [found, Ascending.memInsert, or_comm]
  · rename_i left more found
    have : ¬ left = 1 := fun one => more (one ▸ rfl)
    simp [found, this]
  · rename_i found
    simp [found]

theorem sortedSettle {w : Waiting} (i : Nat) (sorted : Ascending.Sorted w.ready) :
    Ascending.Sorted (w.settle i).ready := by
  unfold settle
  split
  · exact Ascending.sortedInsert sorted
  · exact sorted
  · exact sorted

theorem settleAllPending (w : Waiting) (nodes : List Nat) (j : Nat) :
    (nodes.foldl settle w).pending[j]? = w.pending[j]?.map (· - nodes.count j) := by
  induction nodes generalizing w with
  | nil => simp
  | cons i rest ih =>
    rw [List.foldl_cons, ih, settlePending]
    by_cases same : j = i
    · subst same
      simp [Function.comp_def, Nat.sub_sub, Nat.add_comm]
    · simp [same, Ne.symm same]

theorem memSettleAllReady {w : Waiting} {nodes : List Nat} {j : Nat}
    (enough : ∀ left, w.pending[j]? = some left → nodes.count j ≤ left) :
    j ∈ (nodes.foldl settle w).ready ↔
      j ∈ w.ready ∨ (j ∈ nodes ∧ w.pending[j]? = some (nodes.count j)) := by
  -- Counting a node off as often as its counter says makes it ready with the last step; no counter
  -- is asked to go below zero.
  induction nodes generalizing w with
  | nil => simp
  | cons i rest ih =>
    rw [List.foldl_cons, ih, memSettleReady, settlePending]
    · by_cases same : j = i
      · subst same
        cases found : w.pending[j]? with
        | none => simp
        | some left =>
          have := enough left found
          simp only [List.count_cons_self] at this
          simp only [List.mem_cons, true_or, true_and, List.count_cons_self, if_pos, Option.map_some,
            Option.some.injEq]
          constructor
          · intro h
            rcases h with (old | one) | ⟨mem, left⟩
            · exact Or.inl old
            · exact Or.inr (by omega)
            · exact Or.inr (by omega)
          · intro h
            rcases h with old | all
            · exact Or.inl (Or.inl old)
            · by_cases mem : j ∈ rest
              · exact Or.inr ⟨mem, by omega⟩
              · have := List.count_eq_zero.mpr mem
                exact Or.inl (Or.inr (by omega))
      · simp [same, Ne.symm same]
    · intro left found
      rw [settlePending] at found
      split at found
      · rename_i same
        subst same
        obtain ⟨before, there, rfl⟩ := Option.map_eq_some_iff.mp found
        have := enough before there
        rw [List.count_cons_self] at this
        omega
      · have := enough left found
        exact Nat.le_trans List.count_le_count_cons this

theorem sortedSettleAll {w : Waiting} (nodes : List Nat) (sorted : Ascending.Sorted w.ready) :
    Ascending.Sorted (nodes.foldl settle w).ready := by
  induction nodes generalizing w with
  | nil => exact sorted
  | cons i rest ih => exact ih (sortedSettle i sorted)

structure Tracks (g : Graph) (done : List Nat) (w : Waiting) : Prop where
  pending : ∀ i, g.isActive i = true →
    w.pending[i]? = some ((g.prerequisites i).countP fun j => j ∉ done)
  sorted : Ascending.Sorted w.ready
  ready : ∀ i, i ∈ w.ready ↔
    g.isActive i = true ∧ i ∉ done ∧ ∀ j ∈ g.prerequisites i, j ∈ done
  closed : ∀ i ∈ done, ∀ j ∈ g.prerequisites i, j ∈ done

theorem countFresh {done : List Nat} {i : Nat} (fresh : i ∉ done) (xs : List Nat) :
    (xs.countP fun j => j ∉ done) = (xs.countP fun j => j ∉ i :: done) + xs.count i := by
  induction xs with
  | nil => rfl
  | cons x rest ih =>
    rw [List.countP_cons, List.countP_cons, List.count_cons, ih]
    by_cases same : x = i
    · subst same
      simp [fresh]
      omega
    · by_cases old : x ∈ done
      · simp [same, old]
      · simp [same, old]
        omega

theorem tracksWaiting (g : Graph) : Tracks g [] g.waiting where
  pending i active := by
    have inside := activeInRange active
    simp [waiting, inside]
  sorted := by
    refine List.Pairwise.filter _ (List.Pairwise.filter _ ?_)
    exact List.pairwise_lt_range.imp Nat.compare_eq_lt.mpr
  ready i := by
    simp [waiting, memActiveNodes, List.eq_nil_iff_forall_not_mem]
  closed i old := by simp at old

theorem noneFresh {done xs : List Nat} :
    (xs.countP fun j => j ∉ done) = 0 ↔ ∀ k ∈ xs, k ∈ done := by
  simp only [List.countP_eq_zero, decide_eq_true_eq, Classical.not_not]

namespace Tracks
variable {g : Graph} {done rest : List Nat} {w : Waiting} {i : Nat}

theorem memRest (tracks : Tracks g done w) (ready : w.ready = i :: rest) (j : Nat) :
    j ∈ rest ↔ j ∈ w.ready ∧ j ≠ i := by
  have sorted : Ascending.Sorted (i :: rest) := ready ▸ tracks.sorted
  have notAgain : i ∉ rest := (List.nodup_cons.mp sorted.nodup).1
  rw [ready, List.mem_cons]
  constructor
  · exact fun mem => ⟨Or.inr mem, fun same => notAgain (same ▸ mem)⟩
  · exact fun ⟨mem, other⟩ => mem.resolve_left other

theorem memReadyNext (mirrored : Mirrored g) (tracks : Tracks g done w)
    (ready : w.ready = i :: rest) {j : Nat} (there : g.isActive j = true) :
    j ∈ ((g.dependents i).foldl settle { w with ready := rest }).ready ↔
      j ∉ i :: done ∧ ∀ k ∈ g.prerequisites j, k ∈ i :: done := by
  obtain ⟨active, fresh, free⟩ := (tracks.ready i).mp (ready ▸ List.mem_cons_self)
  have counted := mirrored.countDependents active there
  have needs : j ∈ g.dependents i ↔ i ∈ g.prerequisites j := by
    rw [← List.count_pos_iff, counted, List.count_pos_iff]
  have pending := tracks.pending j there
  have split := countFresh fresh (g.prerequisites j)
  rw [memSettleAllReady, needs, counted, pending, tracks.memRest ready, tracks.ready,
    Option.some.injEq]
  · constructor
    · intro h
      rcases h with ⟨⟨_, old, satisfied⟩, other⟩ | ⟨needs, exact⟩
      · exact ⟨by simp [other, old], fun k mem => List.mem_cons_of_mem _ (satisfied k mem)⟩
      · refine ⟨fun again => ?_, noneFresh.mp (by omega)⟩
        rcases List.mem_cons.mp again with rfl | old
        · exact fresh (free _ needs)
        · exact fresh (tracks.closed j old i needs)
    · intro ⟨out, satisfied⟩
      simp only [List.mem_cons, not_or] at out
      obtain ⟨other, out⟩ := out
      by_cases needs : i ∈ g.prerequisites j
      · have none := noneFresh.mpr satisfied
        exact Or.inr ⟨needs, by omega⟩
      · refine Or.inl ⟨⟨there, out, fun k mem => ?_⟩, other⟩
        rcases List.mem_cons.mp (satisfied k mem) with rfl | old
        · exact absurd mem needs
        · exact old
  · intro left found
    have same := Option.some.inj (found.symm.trans pending)
    omega

theorem step (mirrored : Mirrored g) (tracks : Tracks g done w) (ready : w.ready = i :: rest) :
    Tracks g (i :: done) ((g.dependents i).foldl settle { w with ready := rest }) := by
  obtain ⟨active, fresh, free⟩ := (tracks.ready i).mp (ready ▸ List.mem_cons_self)
  have sorted : Ascending.Sorted (i :: rest) := ready ▸ tracks.sorted
  exact {
    pending := by
      intro j there
      rw [settleAllPending, tracks.pending j there, Option.map_some,
        mirrored.countDependents active there, countFresh fresh, Nat.add_sub_cancel]
    sorted := sortedSettleAll _ (List.pairwise_cons.mp sorted).2
    ready := by
      intro j
      by_cases there : g.isActive j = true
      · simpa [there] using tracks.memReadyNext mirrored ready there
      · have never : j ∉ g.dependents i := fun mem => there (by
          simpa using (List.mem_filter.mp mem).2)
        rw [memSettleAllReady (by simp [List.count_eq_zero.mpr never]), tracks.memRest ready,
          tracks.ready]
        simp [there, never]
    closed := by
      intro j mem k needed
      rcases List.mem_cons.mp mem with rfl | old
      · exact List.mem_cons_of_mem _ (free k needed)
      · exact List.mem_cons_of_mem _ (tracks.closed j old k needed) }

end Tracks

end Waiting

theorem schedulesRunReady {g : Graph} (mirrored : Mirrored g) {done : List Nat} {w : Waiting}
    {steps : Nat} (tracks : Waiting.Tracks g done w)
    (bound : (g.activeNodes.countP fun j => j ∉ done) ≤ steps) :
    Schedules g done (g.runReady steps w) := by
  induction steps generalizing done w with
  | zero =>
    refine Schedules.stop fun i active fresh => ?_
    have all := List.countP_eq_zero.mp (Nat.le_zero.mp bound) i (memActiveNodes.mpr active)
    simp [fresh] at all
  | succ steps ih =>
    unfold runReady
    cases ready : w.ready with
    | nil =>
      refine Schedules.stop fun i active fresh => ?_
      have blocked := (tracks.ready i).not.mp (by simp [ready])
      push Not at blocked
      exact blocked active fresh
    | cons i rest =>
      obtain ⟨active, fresh, free⟩ := (tracks.ready i).mp (ready ▸ List.mem_cons_self)
      have least : ∀ k ∈ rest, i < k := fun k mem => by
        have sorted : Ascending.Sorted (i :: rest) := ready ▸ tracks.sorted
        exact Nat.compare_eq_lt.mp ((List.pairwise_cons.mp sorted).1 k mem)
      refine Schedules.next active fresh free (fun k there out satisfied => ?_)
        (ih (tracks.step mirrored ready) ?_)
      · have mem := (tracks.ready k).mpr ⟨there, out, satisfied⟩
        rw [ready] at mem
        rcases List.mem_cons.mp mem with rfl | later
        · exact Nat.le_refl _
        · exact Nat.le_of_lt (least k later)
      · have split := Waiting.countFresh fresh g.activeNodes
        have here : 0 < g.activeNodes.count i := List.count_pos_iff.mpr (memActiveNodes.mpr active)
        omega

theorem Mirrored.schedules {g : Graph} (mirrored : Mirrored g) : Schedules g [] g.schedule := by
  refine schedulesRunReady mirrored (Waiting.tracksWaiting g) ?_
  calc (g.activeNodes.countP fun j => j ∉ [])
      ≤ g.activeNodes.length := List.countP_le_length
    _ ≤ (List.range g.size).length := List.length_filter_le _ _
    _ = g.size := List.length_range

theorem topologicalOrderSound {g : Graph} (mirrored : Mirrored g) {order : List Nat}
    (ok : g.topologicalOrder = .ok order) :
    order.Perm g.activeNodes ∧ ∀ i j, g.Waits i j → order.idxOf i < order.idxOf j := by
  unfold topologicalOrder at ok
  split at ok
  · rename_i all
    cases ok
    have schedules := mirrored.schedules
    have perm : g.schedule.Perm g.activeNodes := by
      refine List.Subperm.perm_of_length_le ?_ (Nat.le_of_eq all.symm)
      exact List.subperm_of_subset schedules.nodup fun i mem =>
        memActiveNodes.mpr (schedules.mem i mem).1
    refine ⟨perm, fun i j waits => ?_⟩
    obtain ⟨active, needed⟩ := waitsIff.mp waits
    exact schedules.respects (perm.mem_iff.mpr (memActiveNodes.mpr active)) needed (by simp)
  · cases ok

theorem topologicalOrderOkIff {g : Graph} (mirrored : Mirrored g) :
    (∃ order, g.topologicalOrder = .ok order) ↔ Acyclic g.Waits := by
  constructor
  · intro ⟨order, ok⟩ i cycle
    have := pathOrdered (topologicalOrderSound mirrored ok).2 cycle
    omega
  · intro acyclic
    have schedules := mirrored.schedules
    have none : ∀ i, ¬ (g.isActive i = true ∧ i ∉ g.schedule) :=
      acyclic.noneStuck (fun i here => activeInRange here.1) fun i ⟨active, out⟩ => by
        obtain ⟨j, needed, _, there⟩ := schedules.leftOut active (by simp) out
        exact ⟨j, ⟨(memPrerequisites.mp needed).2, there⟩, waitsIff.mpr ⟨active, needed⟩⟩
    have perm : g.schedule.Perm g.activeNodes := by
      refine (List.perm_ext_iff_of_nodup schedules.nodup (activeNodesNodup g)).mpr fun i => ?_
      rw [memActiveNodes]
      constructor
      · exact fun mem => (schedules.mem i mem).1
      · exact fun active => Classical.not_not.mp fun out => none i ⟨active, out⟩
    exact ⟨g.schedule, if_pos perm.length_eq⟩

theorem toNetError {g : Graph} {e : Error} (failed : g.toNet = .error e) :
    ∃ ordered active, e = Cause.invalidGraph (.cycle ordered active) := by
  unfold toNet topologicalOrder at failed
  split at failed
  · simp [bind, Except.bind, pure, Except.pure] at failed
  · simp only [bind, Except.bind, Except.error.injEq] at failed
    exact ⟨_, _, failed.symm⟩

theorem toNetOk {g : Graph} {out : Net} (ok : g.toNet = .ok out) :
    ∃ order, g.topologicalOrder = .ok order ∧
      out.ops = order.filterMap fun i => (g.node? i).map Node.op := by
  unfold toNet at ok
  cases found : g.topologicalOrder with
  | error e => simp [found, bind, Except.bind] at ok
  | ok order =>
    simp only [found, bind, Except.bind, pure, Except.pure, Except.ok.injEq] at ok
    exact ⟨order, rfl, by rw [← ok]⟩

theorem toNetOkIff {g : Graph} :
    (∃ out, g.toNet = .ok out) ↔ ∃ order, g.topologicalOrder = .ok order := by
  constructor
  · intro h
    obtain ⟨out, ok⟩ := h
    obtain ⟨order, found, _⟩ := toNetOk ok
    exact ⟨order, found⟩
  · intro h
    obtain ⟨order, found⟩ := h
    unfold toNet
    rw [found]
    exact ⟨_, rfl⟩

end Graph

end OpNet
