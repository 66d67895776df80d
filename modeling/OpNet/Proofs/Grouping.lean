import OpNet.Proofs.Reorder
import Mathlib.Data.Finset.Max

/-!
Operators that stand for groups of operators. Such an operator runs its members in an environment
of their own: it reads its listed inputs and writes its listed outputs, and nothing else passes.
Main statement: a net keeps its external outputs when its operators are run group by group, if
the order keeps hazards and each group's operator lists what enters the group and what leaves it.
-/
namespace OpNet

universe u

variable {V : Type u}

/-- Runs `parts` for `op`. What their environment holds in blobs that `op` does not read is taken
from `blank`. -/
def Operator.execParts (meaning : Meaning V) (blank : Env V) (op : Operator)
    (parts : List Operator) (env : Env V) : Env V :=
  let inner := runOps meaning parts fun blob => if blob ∈ op.inputs then env blob else blank blob
  fun blob => if blob ∈ op.outputs then inner blob else env blob

theorem Operator.execPartsSelf (meaning : Meaning V) (blank : Env V) (op : Operator)
    (env : Env V) : op.execParts meaning blank [op] env = op.exec meaning env := by
  funext blob
  simp only [execParts, runOpsCons, runOpsNil]
  split
  · rename_i written
    exact execAgree (fun input mem => if_pos mem) (Or.inl written)
  · rename_i absent
    exact (execOutside absent).symm

structure Group where
  op : Operator
  members : List Nat
  deriving DecidableEq, Repr

def runGroups (meaning : Meaning V) (blank : Env V) (net : Net) (groups : List Group)
    (env : Env V) : Env V :=
  groups.foldl (fun env group => group.op.execParts meaning blank (net.pick group.members) env) env

namespace Net

/-- The operator of a group lists as inputs what its members read from elsewhere and nothing else.
As outputs it lists what others read from them and what must be kept, and nothing that no member
writes. -/
structure Covers (net : Net) (group : Group) : Prop where
  entering : ∀ m ∈ group.members, ∀ blob, net.Reads m blob →
    (∀ w ∈ group.members, ¬ net.LastWriter blob w m) → blob ∈ group.op.inputs
  needed : ∀ blob ∈ group.op.inputs, ∃ m ∈ group.members, net.Reads m blob ∧
    ∀ w ∈ group.members, ¬ net.LastWriter blob w m
  leaving : ∀ w ∈ group.members, ∀ m blob, m ∉ group.members → net.Reads m blob →
    net.LastWriter blob w m → blob ∈ group.op.outputs
  kept : ∀ w ∈ group.members, ∀ blob, net.Writes w blob → blob ∈ net.externalOutputs →
    blob ∈ group.op.outputs
  written : ∀ blob ∈ group.op.outputs, ∃ w ∈ group.members, net.Writes w blob

theorem coversSelf {net : Net} {op : Operator} {i : Nat} (here : net.ops[i]? = some op) :
    net.Covers ⟨op, [i]⟩ := by
  have writes : ∀ blob, net.Writes i blob → blob ∈ op.outputs := fun blob => (writesIff here).mp
  exact {
    entering := by simpa using fun blob reads _ => (readsIff here).mp reads
    needed := by simpa [LastWriter] using fun blob mem => (readsIff here).mpr mem
    leaving := by simpa using fun m blob _ _ last => writes blob last.2.1
    kept := by simpa using fun blob written _ => writes blob written
    written := fun blob mem => ⟨i, by simp, (writesIff here).mpr mem⟩ }

structure Grouped (net : Net) (groups : List Group) : Prop where
  perm : (groups.flatMap Group.members).Perm (List.range net.ops.length)
  hazards : net.KeepsHazards (groups.flatMap Group.members)
  covers : ∀ group ∈ groups, net.Covers group

def Fresh (net : Net) (ran : List Group) (blob : String) : Prop :=
  ∀ group ∈ ran, ∀ w ∈ group.members, net.Writes w blob →
    (∀ other ∈ ran, ∀ k ∈ other.members, net.Writes k blob → k ≤ w) → blob ∈ group.op.outputs

namespace Grouped
variable {net : Net} {ran rest : List Group} {group : Group} {meaning : Meaning V}

theorem nodup {groups : List Group} (grouped : net.Grouped groups) :
    (groups.flatMap Group.members).Nodup :=
  grouped.perm.nodup_iff.mpr List.nodup_range

theorem parted (grouped : net.Grouped (ran ++ group :: rest)) :
    net.KeepsHazards group.members ∧
      (∀ g ∈ ran, ∀ w ∈ g.members, ∀ m ∈ group.members, net.Conflict w m → w < m) ∧
      (∀ g ∈ rest, ∀ k ∈ g.members, ∀ m ∈ group.members, net.Conflict m k → m < k) := by
  have hazards := grouped.hazards
  rw [KeepsHazards, List.flatMap_append, List.flatMap_cons, List.pairwise_append,
    List.pairwise_append] at hazards
  obtain ⟨_, ⟨within, _, later⟩, earlier⟩ := hazards
  refine ⟨within, fun g hg w hw m hm => ?_, fun g hg k hk m hm => ?_⟩
  · exact earlier w (List.mem_flatMap.mpr ⟨g, hg, hw⟩) m (List.mem_append_left _ hm)
  · exact later m hm k (List.mem_flatMap.mpr ⟨g, hg, hk⟩)

theorem apart (grouped : net.Grouped (ran ++ group :: rest)) {g : Group} (mem : g ∈ ran) {m : Nat}
    (here : m ∈ group.members) : m ∉ g.members := by
  have nodup := grouped.nodup
  rw [List.flatMap_append, List.flatMap_cons, List.nodup_append] at nodup
  exact fun there => nodup.2.2 m (List.mem_flatMap.mpr ⟨g, mem, there⟩) m
    (List.mem_append_left _ here) rfl

theorem everywhere (grouped : net.Grouped (ran ++ group :: rest)) {k : Nat}
    (bound : k < net.ops.length) :
    (∃ g ∈ ran, k ∈ g.members) ∨ k ∈ group.members ∨ ∃ g ∈ rest, k ∈ g.members := by
  have mem := grouped.perm.mem_iff.mpr (List.mem_range.mpr bound)
  simpa [List.mem_flatMap] using mem

theorem freshInput (grouped : net.Grouped (ran ++ group :: rest)) {m : Nat} {blob : String}
    (mem : m ∈ group.members) (reads : net.Reads m blob)
    (none : ∀ k ∈ group.members, k < m → ¬ net.Writes k blob) :
    blob ∈ group.op.inputs ∧ net.Fresh ran blob := by
  -- A member that reads a blob which no earlier member writes finds it among the group's inputs,
  -- passed on by the group that wrote it last.
  obtain ⟨_, earlier, later⟩ := grouped.parted
  constructor
  · exact (grouped.covers group (by simp)).entering m mem blob reads fun w member last =>
      none w member last.1 last.2.1
  · intro g inRan w member writes latest
    have less : w < m := earlier g inRan w member m mem ⟨blob, Or.inl ⟨writes, Or.inl reads⟩⟩
    have last : net.LastWriter blob w m := by
      refine ⟨less, writes, fun k low high hit => ?_⟩
      have bound := reads.inRange
      rcases grouped.everywhere (show k < net.ops.length by omega) with
        ⟨other, ho, hk⟩ | hk | ⟨other, ho, hk⟩
      · have := latest other ho k hk hit
        omega
      · exact none k hk high hit
      · have := later other ho k hk m mem ⟨blob, Or.inr ⟨reads, hit⟩⟩
        omega
    exact (grouped.covers g (by simp [inRan])).leaving w member m blob
      (grouped.apart inRan mem) reads last

theorem membersAgree (grouped : net.Grouped (ran ++ group :: rest)) (before after : List Nat)
    (split : group.members = before ++ after) {inner outer : Env V}
    (agree : ∀ blob, (∃ k ∈ before, net.Writes k blob) ∨
      (blob ∈ group.op.inputs ∧ net.Fresh ran blob) → inner blob = outer blob)
    (blob : String) (known : (∃ k ∈ group.members, net.Writes k blob) ∨
      (blob ∈ group.op.inputs ∧ net.Fresh ran blob)) :
    runOps meaning (net.pick after) inner blob = runOps meaning (net.pick after) outer blob := by
  -- Members run alike in the group's own environment and among all operators: the two agree on what
  -- members have written so far and on the group's fresh inputs.
  induction after generalizing before inner outer with
  | nil =>
    rw [split, List.append_nil] at known
    exact agree blob known
  | cons m tail ih =>
    have mem : m ∈ group.members := by simp [split]
    have bound : m < net.ops.length := List.mem_range.mp <| grouped.perm.mem_iff.mp <|
      List.mem_flatMap.mpr ⟨group, by simp, mem⟩
    have here : net.ops[m]? = some net.ops[m] := List.getElem?_eq_getElem bound
    have sorted := grouped.parted.1
    rw [KeepsHazards, split, List.pairwise_append, List.pairwise_cons] at sorted
    have reads : ∀ input ∈ net.ops[m].inputs, inner input = outer input := by
      intro input listed
      have read : net.Reads m input := (readsIff here).mpr listed
      -- An input that no earlier member has written is a fresh input of the group.
      by_cases done : ∃ k ∈ before, net.Writes k input
      · exact agree input (Or.inl done)
      · refine agree input (Or.inr (grouped.freshInput mem read fun k member less hit => ?_))
        rw [split, List.mem_append, List.mem_cons] at member
        rcases member with earlier | rfl | later
        · exact done ⟨k, earlier, hit⟩
        · omega
        · have := sorted.2.1.1 k later ⟨input, Or.inr ⟨read, hit⟩⟩
          omega
    rw [pickCons here, runOpsCons, runOpsCons]
    refine ih (before ++ [m]) (by simp [split]) fun other seen => ?_
    by_cases written : other ∈ net.ops[m].outputs
    · exact Operator.execAgree reads (Or.inl written)
    · refine Operator.execAgree reads (Or.inr (agree other ?_))
      refine seen.imp_left fun ⟨k, mem, hit⟩ => ?_
      rcases List.mem_append.mp mem with earlier | same
      · exact ⟨k, earlier, hit⟩
      · rw [List.mem_singleton.mp same, writesIff here] at hit
        exact absurd hit written

theorem latestMember {members : List Nat} {blob : String}
    (some : ∃ k ∈ members, net.Writes k blob) :
    ∃ w ∈ members, net.Writes w blob ∧ ∀ k ∈ members, net.Writes k blob → k ≤ w := by
  classical
  let writers := members.toFinset.filter fun k => net.Writes k blob
  have nonempty : writers.Nonempty := by
    obtain ⟨k, mem, hit⟩ := some
    exact ⟨k, by simp [writers, mem, hit]⟩
  have mem := writers.max'_mem nonempty
  simp only [writers, Finset.mem_filter, List.mem_toFinset] at mem
  exact ⟨writers.max' nonempty, mem.1, mem.2, fun k member hit =>
    writers.le_max' k (by simp [writers, member, hit])⟩

theorem groupAgrees (grouped : net.Grouped (ran ++ group :: rest)) {blank own whole : Env V}
    (agree : ∀ blob, net.Fresh ran blob → own blob = whole blob) (blob : String)
    (fresh : net.Fresh (ran ++ [group]) blob) :
    group.op.execParts meaning blank (net.pick group.members) own blob =
      runOps meaning (net.pick group.members) whole blob := by
  simp only [Operator.execParts]
  split
  · rename_i listed
    refine grouped.membersAgree [] group.members rfl (fun other seen => ?_) blob
      (Or.inl ((grouped.covers group (by simp)).written blob listed))
    obtain ⟨input, known⟩ := seen.resolve_left (by simp)
    rw [if_pos input]
    exact agree other known
  · rename_i absent
    have none : ∀ k ∈ group.members, ¬ net.Writes k blob := by
      intro k member hit
      obtain ⟨w, mem, writes, latest⟩ := latestMember ⟨k, member, hit⟩
      refine absent (fresh group (by simp) w mem writes fun other ho k hk hit => ?_)
      rcases List.mem_append.mp ho with earlier | same
      · exact Nat.le_of_lt (grouped.parted.2.1 other earlier k hk w mem
          ⟨blob, Or.inl ⟨hit, Or.inr writes⟩⟩)
      · rw [List.mem_singleton.mp same] at hk
        exact latest k hk hit
    have untouched : runOps meaning (net.pick group.members) whole blob = whole blob := by
      refine runOpsOutside fun op picked => ?_
      obtain ⟨k, member, here⟩ := memPick.mp picked
      exact fun listed => none k member ((writesIff here).mpr listed)
    rw [untouched]
    refine agree blob fun g inRan w member writes latest => ?_
    refine fresh g (by simp [inRan]) w member writes fun other ho k hk hit => ?_
    rcases List.mem_append.mp ho with earlier | same
    · exact latest other earlier k hk hit
    · rw [List.mem_singleton.mp same] at hk
      exact absurd hit (none k hk)

theorem groupsAgree (grouped : net.Grouped (ran ++ rest)) {blank own whole : Env V}
    (agree : ∀ blob, net.Fresh ran blob → own blob = whole blob) (blob : String)
    (fresh : net.Fresh (ran ++ rest) blob) :
    runGroups meaning blank net rest own blob =
      runOps meaning (net.pick (rest.flatMap Group.members)) whole blob := by
  induction rest generalizing ran own whole with
  | nil =>
    rw [List.append_nil] at fresh
    exact agree blob fresh
  | cons group rest ih =>
    rw [List.flatMap_cons, pickAppend, runOpsAppend]
    have regroup : ran ++ group :: rest = (ran ++ [group]) ++ rest := by simp
    exact ih (regroup ▸ grouped) (grouped.groupAgrees agree) (regroup ▸ fresh)

theorem keepsOutputs {groups : List Group} (grouped : net.Grouped groups) (meaning : Meaning V)
    (blank env : Env V) {blob : String} (wanted : blob ∈ net.externalOutputs) :
    runGroups meaning blank net groups env blob = runOps meaning net.ops env blob := by
  have all : net.Grouped ([] ++ groups) := grouped
  have fresh : net.Fresh ([] ++ groups) blob := fun group mem w member writes _ =>
    (grouped.covers group mem).kept w member blob writes wanted
  calc runGroups meaning blank net groups env blob
      = runOps meaning (net.pick (groups.flatMap Group.members)) env blob :=
        all.groupsAgree (fun _ _ => rfl) blob fresh
    _ = runOps meaning (net.pick (List.range net.ops.length)) env blob := by
        rw [runKeepsHazards (Nat.le_refl _) grouped.perm grouped.hazards]
    _ = runOps meaning net.ops env blob := by rw [pickAll]

end Grouped

end Net

end OpNet
