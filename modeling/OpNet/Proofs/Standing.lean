import OpNet.Proofs.Collapse

/-!
Running a rewritten graph. A node that has taken the place of operators stands for them and runs
them as its parts; any other node runs its own operator. Main statement: when disjoint sets of
operators are replaced one after another, each by an operator that covers it, every execution
order of the graph that is left computes the external outputs of the net.
-/
namespace OpNet

universe u

variable {V : Type u}

def runStanding (meaning : Meaning V) (blank : Env V) (net : Net)
    (standing : List (Nat × List Nat)) (nodes : List (Nat × Operator)) (env : Env V) : Env V :=
  nodes.foldl (fun env entry =>
    match standing.lookup entry.1 with
    | some members => entry.2.execParts meaning blank (net.pick members) env
    | none => entry.2.exec meaning env) env

/-- The nodes from `first` on stand for `sets`, in turn, and no other node stands for any. -/
def StandsFor (standing : List (Nat × List Nat)) (first : Nat) (sets : List (List Nat)) : Prop :=
  ∀ x, standing.lookup x = if x < first then none else sets[x - first]?

namespace StandsFor
variable {standing : List (Nat × List Nat)} {first : Nat} {sets : List (List Nat)}

theorem nil (first : Nat) : StandsFor [] first [] := fun x => by simp

theorem cons (stands : StandsFor standing (first + 1) sets) (set : List Nat) :
    StandsFor ((first, set) :: standing) first (set :: sets) := by
  intro x
  rw [List.lookup_cons]
  by_cases same : x = first
  · simp [same]
  · rw [beq_eq_false_iff_ne.mpr same, stands x]
    by_cases low : x < first
    · rw [if_pos (by omega), if_pos low]
    · obtain ⟨k, rfl⟩ := Nat.exists_eq_add_of_lt (show first < x by omega)
      rw [if_neg (by omega), if_neg low, show first + k + 1 - first = k + 1 by omega,
        List.getElem?_cons_succ, show first + k + 1 - (first + 1) = k by omega]

theorem map (stands : StandsFor standing first sets) (change : List Nat → List Nat) :
    StandsFor (standing.map fun entry => (entry.1, change entry.2)) first (sets.map change) := by
  have looked : ∀ x, (standing.map fun entry => (entry.1, change entry.2)).lookup x =
      (standing.lookup x).map change := fun x => by
    clear stands
    induction standing with
    | nil => rfl
    | cons entry rest ih =>
      rw [List.map_cons, List.lookup_cons, List.lookup_cons, ih]
      cases x == entry.1 <;> rfl
  intro x
  rw [looked, stands x, List.getElem?_map]
  split <;> rfl

end StandsFor

namespace Graph

/-- Replaces the members of one item after another; `operator` is asked about the graph as it is
then. Besides the graph, the nodes that were added and the members they stand for. -/
def replaceEach {α : Type} (members : α → List Nat) (operator : Graph → α → Except Error Operator)
    (g : Graph) : List α → Except Error (Graph × List (Nat × List Nat))
  | [] => .ok (g, [])
  | x :: rest => do
    let op ← operator g x
    let (next, node) ← g.replaceSubgraph (members x) op
    let (last, standing) ← next.replaceEach members operator rest
    return (last, (node, members x) :: standing)

theorem replaceEachCons {α : Type} {members : α → List Nat}
    {operator : Graph → α → Except Error Operator} {g last : Graph} {x : α} {rest : List α}
    {standing : List (Nat × List Nat)} (inside : ∀ i ∈ members x, i < g.size)
    (ok : g.replaceEach members operator (x :: rest) = .ok (last, standing)) :
    ∃ op later, operator g x = .ok op ∧
      (g.replaced (members x) op).replaceEach members operator rest = .ok (last, later) := by
  unfold replaceEach at ok
  cases asked : operator g x with
  | error e => simp [asked, bind, Except.bind] at ok
  | ok op =>
    simp only [asked, replaceSubgraphOk inside op, bind, Except.bind] at ok
    cases following : (g.replaced (members x) op).replaceEach members operator rest with
    | error e => simp [following] at ok
    | ok result =>
      simp only [following, pure, Except.pure, Except.ok.injEq, Prod.mk.injEq] at ok
      exact ⟨op, result.2, rfl, by rw [following, ← ok.1]⟩

end Graph

namespace Net
open OpNet.Graph Relation

def units (net : Net) (groups : List Group) : List Group :=
  net.ops.zipIdx.map (fun entry => ⟨entry.1, [entry.2]⟩) ++ groups

theorem unitsOp (net : Net) (groups : List Group) :
    (net.units groups).map Group.op = net.ops ++ groups.map Group.op := by
  rw [units, List.map_append, List.map_map]
  exact congrArg (· ++ groups.map Group.op) (List.zipIdx_map_fst 0 net.ops)

theorem unitsLength (net : Net) (groups : List Group) :
    (net.units groups).length = net.ops.length + groups.length := by
  simp [units]

theorem unitLow {net : Net} {groups : List Group} {x : Nat} {op : Operator}
    (here : net.ops[x]? = some op) : (net.units groups)[x]? = some ⟨op, [x]⟩ := by
  have inside := (List.getElem?_eq_some_iff.mp here).1
  rw [units, List.getElem?_append_left (by simpa using inside)]
  simp [here]

theorem unitHigh (net : Net) (groups : List Group) (k : Nat) :
    (net.units groups)[net.ops.length + k]? = groups[k]? := by
  rw [units, List.getElem?_append_right (by simp)]
  simp

theorem unitCases {net : Net} {groups : List Group} {x : Nat} {unit : Group}
    (found : (net.units groups)[x]? = some unit) :
    (x < net.ops.length ∧ net.ops[x]? = some unit.op ∧ unit.members = [x]) ∨
      ∃ k, x = net.ops.length + k ∧ groups[k]? = some unit := by
  by_cases low : x < net.ops.length
  · have here : net.ops[x]? = some net.ops[x] := List.getElem?_eq_getElem low
    rw [unitLow here] at found
    cases found
    exact Or.inl ⟨low, here, rfl⟩
  · obtain ⟨k, rfl⟩ := Nat.exists_eq_add_of_le (Nat.le_of_not_lt low)
    rw [unitHigh] at found
    exact Or.inr ⟨k, rfl, found⟩

namespace Collapsed
variable {net : Net} {groups : List Group} {g : Graph} {order : List Nat}

theorem unitCovers (c : Collapsed net groups g) {x : Nat} {unit : Group}
    (found : (net.units groups)[x]? = some unit) :
    net.Covers unit ∧ unit.members.Pairwise (· < ·) := by
  rcases unitCases found with ⟨_, here, members⟩ | ⟨k, _, at_⟩
  · have self := coversSelf here
    obtain ⟨op, list⟩ := unit
    cases members
    exact ⟨self, List.pairwise_singleton _ _⟩
  · have mem := List.mem_of_getElem? at_
    exact ⟨c.parts.covers unit mem, c.parts.separate.ascending _ (List.mem_map_of_mem mem)⟩

theorem memUnit (c : Collapsed net groups g) {x i : Nat} {unit : Group}
    (active : g.isActive x = true) (found : (net.units groups)[x]? = some unit) :
    i ∈ unit.members ↔ i < net.ops.length ∧ net.home (groups.map Group.members) i = x := by
  rcases unitCases found with ⟨low, _, members⟩ | ⟨k, rfl, at_⟩
  · rw [members, List.mem_singleton]
    constructor
    · intro h
      subst h
      exact ⟨low, homeOutside ((c.active i).mp active).2⟩
    · intro h
      obtain ⟨_, rfl⟩ := h
      exact (homeOwn low).symm
  · have set : (groups.map Group.members)[k]? = some unit.members := by simp [at_]
    constructor
    · exact fun here => ⟨c.parts.inRange (List.mem_of_getElem? at_) here,
        c.parts.separate.home set here⟩
    · intro h
      obtain ⟨bound, same⟩ := h
      rcases homeCases net (groups.map Group.members) i with ⟨_, own⟩ | ⟨l, other, there, mem, own⟩
      · omega
      · have index : l = k := by omega
        subst index
        rw [set] at there
        cases there
        exact mem

theorem unitAt (c : Collapsed net groups g) {x : Nat} (active : g.isActive x = true) :
    ∃ unit, (net.units groups)[x]? = some unit := by
  have inside := activeInRange active
  rw [c.size, ← unitsLength net groups] at inside
  exact ⟨_, List.getElem?_eq_getElem inside⟩

theorem pairwiseMembers (c : Collapsed net groups g) {related : Nat → Nat → Prop}
    (active : ∀ x ∈ order, g.isActive x = true)
    (within : ∀ i j, i < j → related i j)
    (across : order.Pairwise fun x y => ∀ i j, net.home (groups.map Group.members) i = x →
      net.home (groups.map Group.members) j = y → related i j) :
    ((order.filterMap ((net.units groups)[·]?)).flatMap Group.members).Pairwise related := by
  rw [List.pairwise_flatMap, List.pairwise_filterMap]
  constructor
  · intro unit mem
    obtain ⟨x, _, found⟩ := List.mem_filterMap.mp mem
    exact (c.unitCovers found).2.imp fun less => within _ _ less
  · refine across.imp_of_mem fun {x y} hx hy all a ha b hb i hi j hj => ?_
    exact all i j ((c.memUnit (active x hx) ha).mp hi).2 ((c.memUnit (active y hy) hb).mp hj).2

theorem conflictAhead (c : Collapsed net groups g) (ok : g.topologicalOrder = .ok order) {i j : Nat}
    (less : i < j) (conflict : net.Conflict i j)
    (apart : net.home (groups.map Group.members) i ≠ net.home (groups.map Group.members) j) :
    order.idxOf (net.home (groups.map Group.members) i) <
      order.idxOf (net.home (groups.map Group.members) j) := by
  have path := (mergedPath (conflictPath less conflict)).resolve_left apart
  exact pathOrdered (fun a b edge => (topologicalOrderSound c.mirrored ok).2 a b
    (c.waitsIff.mpr edge)) path

theorem grouped (c : Collapsed net groups g) (ok : g.topologicalOrder = .ok order) :
    net.Grouped (order.filterMap ((net.units groups)[·]?)) := by
  obtain ⟨perm, respects⟩ := topologicalOrderSound c.mirrored ok
  have nodup : order.Nodup := perm.nodup_iff.mpr (activeNodesNodup g)
  have active : ∀ x ∈ order, g.isActive x = true := fun x mem =>
    memActiveNodes.mp (perm.mem_iff.mp mem)
  exact {
    perm := by
      have distinct : List.Nodup
          ((order.filterMap ((net.units groups)[·]?)).flatMap Group.members) := by
        refine c.pairwiseMembers active (fun i j => Nat.ne_of_lt) ?_
        refine nodup.imp fun different i j hi hj same => different ?_
        rw [← hi, ← hj, same]
      refine (List.perm_ext_iff_of_nodup distinct List.nodup_range).mpr fun i => ?_
      simp only [List.mem_flatMap, List.mem_filterMap, List.mem_range]
      constructor
      · intro h
        obtain ⟨unit, ⟨x, mem, found⟩, here⟩ := h
        exact ((c.memUnit (active x mem) found).mp here).1
      · intro inside
        have home := c.activeHome inside
        obtain ⟨unit, found⟩ := c.unitAt home
        exact ⟨unit, ⟨_, perm.mem_iff.mpr (memActiveNodes.mpr home), found⟩,
          (c.memUnit home found).mpr ⟨inside, rfl⟩⟩
    hazards := by
      refine c.pairwiseMembers active (fun i j less _ => less) ?_
      refine pairwiseOfIdx nodup fun x hx y hy less i j hi hj conflict => ?_
      subst hi hj
      have apart : net.home (groups.map Group.members) j ≠ net.home (groups.map Group.members) i :=
        fun same => by
          rw [same] at less
          exact Nat.lt_irrefl _ less
      rcases Nat.lt_trichotomy i j with before | same | after
      · exact before
      · exact absurd (congrArg _ same.symm) apart
      -- A conflict against the order would be a path against it.
      · have := c.conflictAhead ok after conflict.symm apart
        omega
    covers := by
      intro unit mem
      obtain ⟨x, _, found⟩ := List.mem_filterMap.mp mem
      exact (c.unitCovers found).1 }

theorem replaceEach {α : Type} {members run : α → List Nat} (c : Collapsed net groups g)
    (operator : Graph → α → Except Error Operator) (xs : List α)
    (same : ∀ x ∈ xs, ∀ i, i ∈ members x ↔ i ∈ run x)
    (separate : net.Separate (groups.map Group.members ++ xs.map run))
    (next : ∀ x ∈ xs, ∀ groups g, Collapsed net groups g →
      net.Separate (groups.map Group.members ++ [run x]) →
      ∃ op, operator g x = .ok op ∧ net.Covers ⟨op, run x⟩) :
    ∃ added last standing, g.replaceEach members operator xs = .ok (last, standing) ∧
      added.map Group.members = xs.map run ∧ Collapsed net (groups ++ added) last ∧
      StandsFor standing g.size (xs.map members) := by
  induction xs generalizing groups g with
  | nil => exact ⟨[], g, [], rfl, rfl, by rwa [List.append_nil], StandsFor.nil g.size⟩
  | cons x rest ih =>
    have fewer : (groups.map Group.members ++ [run x]).Sublist
        (groups.map Group.members ++ (x :: rest).map run) :=
      (List.Sublist.refl _).append (by simp)
    obtain ⟨op, asked, covers⟩ := next x (by simp) groups g c (separate.sublist fewer)
    have parts : net.Parts (groups ++ [⟨op, run x⟩]) := by
      refine ⟨by simpa using separate.sublist fewer, List.forall_mem_append.mpr ?_⟩
      exact ⟨c.parts.covers, List.forall_mem_singleton.mpr covers⟩
    have inside : ∀ i ∈ members x, i < g.size := fun i mem => by
      have size := c.size
      have := bound parts.last ((same x (by simp) i).mp mem)
      omega
    have replaced := replaceSubgraphOk inside op
    have stepped := c.replace parts (same x (by simp))
    obtain ⟨added, last, standing, ok, sets, collapsed, stands⟩ :=
      ih stepped (fun y mem => same y (by simp [mem])) (by simpa using separate)
        fun y mem => next y (by simp [mem])
    refine ⟨⟨op, run x⟩ :: added, last, (g.size, members x) :: standing, ?_, by simp [sets],
      by simpa using collapsed, (sizeReplaced g (members x) op ▸ stands).cons (members x)⟩
    simp only [Graph.replaceEach, asked, replaced, bind, Except.bind, ok, pure, Except.pure]

theorem runStandingUnits {V : Type u} (meaning : Meaning V) (blank : Env V)
    (c : Collapsed net groups g) {standing : List (Nat × List Nat)}
    (stands : StandsFor standing net.ops.length (groups.map Group.members))
    (active : ∀ x ∈ order, g.isActive x = true) (env : Env V) :
    (order.filterMap fun i => (g.node? i).map Node.op).length = order.length ∧
      runStanding meaning blank net standing
        (order.zip (order.filterMap fun i => (g.node? i).map Node.op)) env =
        runGroups meaning blank net (order.filterMap ((net.units groups)[·]?)) env := by
  induction order generalizing env with
  | nil => exact ⟨rfl, rfl⟩
  | cons x rest ih =>
    obtain ⟨here, later⟩ := List.forall_mem_cons.mp active
    obtain ⟨unit, found⟩ := c.unitAt here
    have op : (g.node? x).map Node.op = some unit.op := by
      rw [c.op, ← unitsOp, List.getElem?_map, found]
      rfl
    have step : (match standing.lookup x with
        | some members => unit.op.execParts meaning blank (net.pick members) env
        | none => unit.op.exec meaning env) =
        unit.op.execParts meaning blank (net.pick unit.members) env := by
      rw [stands x]
      rcases unitCases found with ⟨low, at_, members⟩ | ⟨k, rfl, at_⟩
      · rw [if_pos low, members, pickCons at_, pickNil]
        exact (Operator.execPartsSelf meaning blank unit.op env).symm
      · rw [if_neg (by omega), Nat.add_sub_cancel_left, List.getElem?_map, at_]
        rfl
    obtain ⟨length, run⟩ := ih later (unit.op.execParts meaning blank (net.pick unit.members) env)
    simp only [List.filterMap_cons, op, found, List.length_cons, length, List.zip_cons_cons,
      true_and]
    unfold runStanding runGroups at run ⊢
    rw [List.foldl_cons, List.foldl_cons, step, run]

theorem exportRunsAlike {V : Type u} (meaning : Meaning V) (blank env : Env V)
    (c : Collapsed net groups g) {standing : List (Nat × List Nat)}
    (stands : StandsFor standing net.ops.length (groups.map Group.members)) {out : Net}
    (ok : g.toNet = .ok out) :
    ∃ order, g.topologicalOrder = .ok order ∧ order.length = out.ops.length ∧
      ∀ blob ∈ net.externalOutputs,
        runStanding meaning blank net standing (order.zip out.ops) env blob =
          runOps meaning net.ops env blob := by
  obtain ⟨order, found, ops⟩ := toNetOk ok
  have active : ∀ x ∈ order, g.isActive x = true := fun x mem =>
    memActiveNodes.mp ((topologicalOrderSound c.mirrored found).1.mem_iff.mp mem)
  obtain ⟨length, run⟩ := c.runStandingUnits meaning blank stands active env
  refine ⟨order, found, by rw [ops, length], fun blob wanted => ?_⟩
  rw [ops, run]
  exact (c.grouped found).keepsOutputs meaning blank env wanted

end Collapsed

end Net

end OpNet
