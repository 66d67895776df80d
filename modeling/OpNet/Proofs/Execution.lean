import OpNet.Net
import Mathlib.Logic.Function.Basic

/-!
What a net computes. An environment gives every blob a value; an operator computes its outputs
from its definition and the values of its inputs, and changes nothing else. Main statement:
operators that do not touch each other's blobs may run in either order.
-/
namespace OpNet

universe u

abbrev Env (V : Type u) := String → V

/-- The value of each output, by position, for an operator and the values of its inputs in
argument order. -/
abbrev Meaning (V : Type u) := Operator → List V → Nat → V

variable {V : Type u}

namespace Env

def write (env : Env V) (writes : List (String × V)) : Env V :=
  writes.foldl (fun env entry => Function.update env entry.1 entry.2) env

theorem writeOutside {env : Env V} {writes : List (String × V)} {blob : String}
    (absent : blob ∉ writes.map Prod.fst) : env.write writes blob = env blob := by
  induction writes generalizing env with
  | nil => rfl
  | cons entry rest ih =>
    simp only [List.map_cons, List.mem_cons, not_or] at absent
    calc env.write (entry :: rest) blob
        = write (Function.update env entry.1 entry.2) rest blob := rfl
      _ = Function.update env entry.1 entry.2 blob := ih absent.2
      _ = env blob := Function.update_of_ne absent.1 ..

theorem writeAgree {left right : Env V} {writes : List (String × V)} {blob : String}
    (agree : blob ∈ writes.map Prod.fst ∨ left blob = right blob) :
    left.write writes blob = right.write writes blob := by
  induction writes generalizing left right with
  | nil => simpa [write] using agree
  | cons entry rest ih =>
    refine ih ?_
    by_cases here : blob = entry.1
    · subst here
      exact Or.inr (by simp)
    · simpa [here] using agree

end Env

namespace Operator

def exec (meaning : Meaning V) (op : Operator) (env : Env V) : Env V :=
  let values := meaning op (op.inputs.map env)
  env.write (op.outputs.zipIdx.map fun entry => (entry.1, values entry.2))

theorem writtenBlobs (op : Operator) (values : Nat → V) :
    (op.outputs.zipIdx.map fun entry => (entry.1, values entry.2)).map Prod.fst = op.outputs := by
  rw [List.map_map]
  exact List.zipIdx_map_fst 0 op.outputs

theorem execOutside {meaning : Meaning V} {op : Operator} {env : Env V} {blob : String}
    (absent : blob ∉ op.outputs) : op.exec meaning env blob = env blob :=
  Env.writeOutside (by rwa [writtenBlobs])

theorem execAgree {meaning : Meaning V} {op : Operator} {left right : Env V} {blob : String}
    (reads : ∀ input ∈ op.inputs, left input = right input)
    (agree : blob ∈ op.outputs ∨ left blob = right blob) :
    op.exec meaning left blob = op.exec meaning right blob := by
  have same : op.inputs.map left = op.inputs.map right := List.map_congr_left reads
  unfold exec
  rw [same]
  exact Env.writeAgree (by rwa [writtenBlobs])

def Conflict (a b : Operator) : Prop :=
  ∃ blob, (blob ∈ a.outputs ∧ (blob ∈ b.inputs ∨ blob ∈ b.outputs)) ∨
    (blob ∈ a.inputs ∧ blob ∈ b.outputs)

theorem Conflict.symm {a b : Operator} (conflict : Conflict a b) : Conflict b a := by
  obtain ⟨blob, ⟨wa, rb | wb⟩ | ⟨ra, wb⟩⟩ := conflict
  · exact ⟨blob, Or.inr ⟨rb, wa⟩⟩
  · exact ⟨blob, Or.inl ⟨wb, Or.inr wa⟩⟩
  · exact ⟨blob, Or.inl ⟨wb, Or.inl ra⟩⟩

theorem execCommute {meaning : Meaning V} {a b : Operator} (independent : ¬ Conflict a b)
    (env : Env V) : a.exec meaning (b.exec meaning env) = b.exec meaning (a.exec meaning env) := by
  have readA : ∀ input ∈ a.inputs, b.exec meaning env input = env input := fun input mem =>
    execOutside fun written => independent ⟨input, Or.inr ⟨mem, written⟩⟩
  have readB : ∀ input ∈ b.inputs, env input = a.exec meaning env input := fun input mem =>
    (execOutside fun written => independent ⟨input, Or.inl ⟨written, Or.inl mem⟩⟩).symm
  funext blob
  by_cases inA : blob ∈ a.outputs
  · have notB : blob ∉ b.outputs := fun inB => independent ⟨blob, Or.inl ⟨inA, Or.inr inB⟩⟩
    rw [execOutside notB]
    exact execAgree readA (Or.inl inA)
  · rw [execOutside inA]
    refine execAgree readB ?_
    by_cases inB : blob ∈ b.outputs
    · exact Or.inl inB
    · exact Or.inr (execOutside inA).symm

end Operator

def runOps (meaning : Meaning V) (ops : List Operator) (env : Env V) : Env V :=
  ops.foldl (fun env op => op.exec meaning env) env

@[simp] theorem runOpsNil (meaning : Meaning V) (env : Env V) : runOps meaning [] env = env := rfl

@[simp] theorem runOpsCons (meaning : Meaning V) (op : Operator) (ops : List Operator)
    (env : Env V) : runOps meaning (op :: ops) env = runOps meaning ops (op.exec meaning env) := rfl

theorem runOpsAppend (meaning : Meaning V) (first last : List Operator) (env : Env V) :
    runOps meaning (first ++ last) env = runOps meaning last (runOps meaning first env) :=
  List.foldl_append

theorem runOpsOutside {meaning : Meaning V} {ops : List Operator} {env : Env V} {blob : String}
    (absent : ∀ op ∈ ops, blob ∉ op.outputs) : runOps meaning ops env blob = env blob := by
  induction ops generalizing env with
  | nil => rfl
  | cons op rest ih =>
    obtain ⟨head, tail⟩ := List.forall_mem_cons.mp absent
    rw [runOpsCons, ih tail, Operator.execOutside head]

theorem runOpsDelay {meaning : Meaning V} {op : Operator} {ops : List Operator}
    (independent : ∀ later ∈ ops, ¬ op.Conflict later) (env : Env V) :
    runOps meaning (op :: ops) env = op.exec meaning (runOps meaning ops env) := by
  induction ops generalizing env with
  | nil => rfl
  | cons next rest ih =>
    obtain ⟨head, tail⟩ := List.forall_mem_cons.mp independent
    have swap : next.exec meaning (op.exec meaning env) = op.exec meaning (next.exec meaning env) :=
      Operator.execCommute (fun conflict => head conflict.symm) env
    calc runOps meaning (op :: next :: rest) env
        = runOps meaning (op :: rest) (next.exec meaning env) := by simp only [runOpsCons, swap]
      _ = op.exec meaning (runOps meaning (next :: rest) env) := ih tail _

namespace Net

def pick (net : Net) (order : List Nat) : List Operator := order.filterMap (net.ops[·]?)

@[simp] theorem pickNil (net : Net) : net.pick [] = [] := rfl

theorem pickAppend (net : Net) (first last : List Nat) :
    net.pick (first ++ last) = net.pick first ++ net.pick last := by
  simp [pick]

theorem pickCons {net : Net} {i : Nat} {op : Operator} (here : net.ops[i]? = some op)
    (rest : List Nat) : net.pick (i :: rest) = op :: net.pick rest := by
  simp [pick, here]

theorem memPick {net : Net} {order : List Nat} {op : Operator} :
    op ∈ net.pick order ↔ ∃ i ∈ order, net.ops[i]? = some op := by
  simp [pick]

theorem pickAll (net : Net) : net.pick (List.range net.ops.length) = net.ops := by
  have all : ∀ ops : List Operator, (List.range ops.length).filterMap (ops[·]?) = ops := by
    intro ops
    induction ops with
    | nil => rfl
    | cons op rest ih =>
      simpa [List.range_succ_eq_map, List.filterMap_map, Function.comp_def] using ih
  exact all net.ops

end Net

end OpNet
