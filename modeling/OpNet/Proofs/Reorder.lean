import OpNet.Proofs.Execution
import OpNet.Proofs.LastWriter
import OpNet.Proofs.Schedule
import Mathlib.Data.Nat.Find

/-!
Hazards. Two operators conflict when one writes a blob that the other reads or writes; the graph of
a net holds a path between any two that do, although it records only the nearest hazards. Main
statement: every order of the operators that the graph allows ends in the environment in which
the net itself ends.
-/
namespace OpNet

universe u

namespace Net
open OpNet.Graph Relation

variable {net : Net} {blob : String} {i j : Nat}

def Conflict (net : Net) (i j : Nat) : Prop :=
  ∃ blob, (net.Writes i blob ∧ (net.Reads j blob ∨ net.Writes j blob)) ∨
    (net.Reads i blob ∧ net.Writes j blob)

theorem Conflict.symm (conflict : net.Conflict i j) : net.Conflict j i := by
  obtain ⟨blob, ⟨wi, rj | wj⟩ | ⟨ri, wj⟩⟩ := conflict
  · exact ⟨blob, Or.inr ⟨rj, wi⟩⟩
  · exact ⟨blob, Or.inl ⟨wj, Or.inr wi⟩⟩
  · exact ⟨blob, Or.inl ⟨wj, Or.inl ri⟩⟩

theorem conflictOfOperators {a b : Operator} (ha : net.ops[i]? = some a)
    (hb : net.ops[j]? = some b) (conflict : a.Conflict b) : net.Conflict i j := by
  simpa only [Conflict, Operator.Conflict, readsIff ha, readsIff hb, writesIff ha, writesIff hb]
    using conflict

theorem beforeIff : (ofNet net).Before i j ↔
    (∃ blob, net.Reads j blob ∧ net.LastWriter blob i j) ∨
      ∃ blob, net.Writes j blob ∧ (net.LastWriter blob i j ∨ net.ReaderSince blob i j) := by
  simp only [Before, Links.memNodes, memParentsOfNet, memRunsAfterOfNet]

theorem lessOfBefore (before : (ofNet net).Before i j) : i < j := by
  rcases beforeIff.mp before with ⟨_, _, last⟩ | ⟨_, _, last | since⟩
  · exact last.1
  · exact last.1
  · exact since.1

theorem inRangeOfBefore (before : (ofNet net).Before i j) : j < net.ops.length := by
  rcases beforeIff.mp before with ⟨_, reads, _⟩ | ⟨_, writes, _⟩
  · exact reads.inRange
  · exact writes.inRange

theorem existsLastWriter (less : i < j) (writes : net.Writes i blob) :
    ∃ w, i ≤ w ∧ net.LastWriter blob w j := by
  induction j with
  | zero => omega
  | succ j ih =>
    by_cases here : net.Writes j blob
    · exact ⟨j, by omega, lastWriterSucc.mpr (Or.inl ⟨here, rfl⟩)⟩
    · have other : i ≠ j := fun same => here (same ▸ writes)
      obtain ⟨w, bound, last⟩ := ih (by omega)
      exact ⟨w, bound, lastWriterSucc.mpr (Or.inr ⟨here, last⟩)⟩

theorem writersPath (less : i < j) (first : net.Writes i blob) (last : net.Writes j blob) :
    TransGen (ofNet net).Before i j := by
  induction j using Nat.strongRecOn with
  | ind j ih =>
    obtain ⟨w, bound, latest⟩ := existsLastWriter less first
    have edge : (ofNet net).Before w j := beforeIff.mpr (Or.inr ⟨blob, last, Or.inl latest⟩)
    rcases Nat.eq_or_lt_of_le bound with rfl | between
    · exact TransGen.single edge
    · exact (ih w latest.1 between latest.2.1).tail edge

theorem writeReadPath (less : i < j) (writes : net.Writes i blob) (reads : net.Reads j blob) :
    TransGen (ofNet net).Before i j := by
  obtain ⟨w, bound, latest⟩ := existsLastWriter less writes
  have edge : (ofNet net).Before w j := beforeIff.mpr (Or.inl ⟨blob, reads, latest⟩)
  rcases Nat.eq_or_lt_of_le bound with rfl | between
  · exact TransGen.single edge
  · exact (writersPath between writes latest.2.1).tail edge

theorem existsNextWriter (less : i < j) (writes : net.Writes j blob) :
    ∃ k, i ≤ k ∧ k ≤ j ∧ net.Writes k blob ∧ ∀ m, i ≤ m → m < k → ¬ net.Writes m blob := by
  classical
  have any : ∃ k, i ≤ k ∧ net.Writes k blob := ⟨j, by omega, writes⟩
  obtain ⟨low, here⟩ := Nat.find_spec any
  exact ⟨Nat.find any, low, Nat.find_min' any ⟨by omega, writes⟩, here,
    fun m bound before hit => Nat.find_min any before ⟨bound, hit⟩⟩

theorem readWritePath (less : i < j) (reads : net.Reads i blob) (writes : net.Writes j blob) :
    TransGen (ofNet net).Before i j := by
  -- The next writer after a read waits for it; an operator that overwrites what it reads is that
  -- writer itself.
  obtain ⟨k, low, high, next, none⟩ := existsNextWriter less writes
  rcases Nat.eq_or_lt_of_le low with rfl | after
  · exact writersPath less next writes
  · have edge : (ofNet net).Before i k :=
      beforeIff.mpr (Or.inr ⟨blob, next, Or.inr ⟨after, reads, none⟩⟩)
    rcases Nat.eq_or_lt_of_le high with rfl | before
    · exact TransGen.single edge
    · exact TransGen.head edge (writersPath before next writes)

theorem conflictPath (less : i < j) (conflict : net.Conflict i j) :
    TransGen (ofNet net).Before i j := by
  obtain ⟨blob, ⟨writes, reads | later⟩ | ⟨reads, later⟩⟩ := conflict
  · exact writeReadPath less writes reads
  · exact writersPath less writes later
  · exact readWritePath less reads later

def KeepsHazards (net : Net) (order : List Nat) : Prop :=
  order.Pairwise fun i j => net.Conflict i j → i < j

theorem runKeepsHazards {V : Type u} {meaning : Meaning V} {n : Nat} {order : List Nat}
    (bound : n ≤ net.ops.length) (perm : order.Perm (List.range n))
    (keeps : net.KeepsHazards order) (env : Env V) :
    runOps meaning (net.pick order) env = runOps meaning (net.pick (List.range n)) env := by
  induction n generalizing order with
  | zero =>
    rw [List.range_zero] at perm ⊢
    rw [perm.eq_nil]
  | succ n ih =>
    have mem : n ∈ order := perm.mem_iff.mpr (List.mem_range.mpr (by omega))
    obtain ⟨front, back, rfl⟩ := List.append_of_mem mem
    have smaller : (front ++ back).Perm (List.range n) := by
      rw [List.range_succ] at perm
      exact (List.perm_middle.symm.trans (perm.trans List.perm_append_comm)).cons_inv
    have sub : (front ++ back).Sublist (front ++ n :: back) :=
      (List.Sublist.refl front).append (List.sublist_cons_self n back)
    obtain ⟨op, here⟩ : ∃ op, net.ops[n]? = some op :=
      ⟨net.ops[n], List.getElem?_eq_getElem (by omega)⟩
    -- What the order puts after `n` stands before it in the net, so no conflict is possible.
    have independent : ∀ later ∈ net.pick back, ¬ op.Conflict later := by
      intro later picked conflict
      obtain ⟨j, inBack, there⟩ := memPick.mp picked
      have after := (List.pairwise_append.mp keeps).2.1
      have less := (List.pairwise_cons.mp after).1 j inBack (conflictOfOperators here there conflict)
      have inside := smaller.mem_iff.mp (List.mem_append_right front inBack)
      have := List.mem_range.mp inside
      omega
    calc runOps meaning (net.pick (front ++ n :: back)) env
        = runOps meaning (op :: net.pick back) (runOps meaning (net.pick front) env) := by
          rw [pickAppend, pickCons here, runOpsAppend]
      _ = op.exec meaning (runOps meaning (net.pick back) (runOps meaning (net.pick front) env)) :=
          runOpsDelay independent _
      _ = op.exec meaning (runOps meaning (net.pick (front ++ back)) env) := by
          rw [pickAppend, runOpsAppend]
      _ = op.exec meaning (runOps meaning (net.pick (List.range n)) env) := by
          rw [ih (by omega) smaller (keeps.sublist sub)]
      _ = runOps meaning (net.pick (List.range (n + 1))) env := by
          rw [List.range_succ, pickAppend, runOpsAppend, pickCons here]
          rfl

theorem pairwiseOfIdx {order : List Nat} {related : Nat → Nat → Prop} (nodup : order.Nodup)
    (all : ∀ i ∈ order, ∀ j ∈ order, order.idxOf i < order.idxOf j → related i j) :
    order.Pairwise related := by
  rw [List.pairwise_iff_getElem]
  intro p q hp hq less
  refine all _ (List.getElem_mem hp) _ (List.getElem_mem hq) ?_
  rwa [nodup.idxOf_getElem p hp, nodup.idxOf_getElem q hq]

theorem keepsHazardsOfRespects {order : List Nat} (nodup : order.Nodup)
    (respects : ∀ i j, (ofNet net).Before i j → order.idxOf i < order.idxOf j) :
    net.KeepsHazards order := by
  refine pairwiseOfIdx nodup fun i _ j _ less conflict => ?_
  rcases Nat.lt_trichotomy i j with before | same | after
  · exact before
  · subst same
    omega
  · have := pathOrdered respects (conflictPath after conflict.symm)
    omega

theorem respectingOrderRunsAlike {V : Type u} (meaning : Meaning V) (net : Net) (env : Env V)
    {order : List Nat} (perm : order.Perm (List.range net.ops.length))
    (respects : ∀ i j, (ofNet net).Before i j → order.idxOf i < order.idxOf j) :
    runOps meaning (net.pick order) env = runOps meaning net.ops env := by
  have nodup : order.Nodup := perm.nodup_iff.mpr List.nodup_range
  rw [runKeepsHazards (Nat.le_refl _) perm (keepsHazardsOfRespects nodup respects), pickAll]

def overwriting : Net where
  ops :=
    [{ kind := "Conv", inputs := ["X"], outputs := ["C"] },
     { kind := "Scale", inputs := ["X"], outputs := ["X"] },
     { kind := "Relu", inputs := ["C"], outputs := ["R"] },
     { kind := "Fill", outputs := ["X"] }]

theorem overwritingRunsAlike :
    let meaning : Meaning Nat := fun op values k => values.foldl (· + ·) (op.inputs.length + k)
    runOps meaning (overwriting.pick [0, 1, 3, 2]) (fun _ => 1) =
      runOps meaning overwriting.ops (fun _ => 1) := by
  refine respectingOrderRunsAlike _ overwriting _ (by decide) fun i j before => ?_
  have bounded : ∀ j < 4, ∀ i < j, (ofNet overwriting).Before i j →
      [0, 1, 3, 2].idxOf i < [0, 1, 3, 2].idxOf j := by decide +kernel
  exact bounded j (inRangeOfBefore before) i (lessOfBefore before) before

end Net

end OpNet
