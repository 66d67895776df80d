import OpNet.Proofs.Grouping
import OpNet.Proofs.Replacement

/-!
Replacing disjoint sets of operators one after another. Operator `i` then lives at `home i`, and
between active nodes the graph is the graph of the net with every operator sent to its home. Main
statement: an execution order of such a graph runs the net group by group and keeps hazards.
-/
namespace OpNet
open Relation

/-- Between live nodes, `new` is `old` with every node sent home, apart from loops. -/
def Contracts (home : Nat → Nat) (live : Nat → Prop) (old new : Nat → Nat → Prop) : Prop :=
  ∀ x y, live x → live y → (new x y ↔ x ≠ y ∧ ∃ i j, home i = x ∧ home j = y ∧ old i j)

structure Takeover (home : Nat → Nat) (live : Nat → Prop) (set : List Nat) (fresh : Nat) :
    Prop where
  own : ∀ i, home i ∈ set ∨ i ∈ set → home i = i
  within : ∀ x ∈ set, live x
  above : ∀ x, live x → x < fresh

section
variable {home : Nat → Nat} {live : Nat → Prop} {old new after : Nat → Nat → Prop}
  {set : List Nat} {fresh i x y : Nat}

theorem Takeover.homeOld (takeover : Takeover home live set fresh) (there : live x)
    (out : x ∉ set) : (if i ∈ set then fresh else home i) = x ↔ home i = x := by
  have less := takeover.above x there
  by_cases mem : i ∈ set
  · have self := takeover.own i (Or.inr mem)
    have other : i ≠ x := fun same => out (same ▸ mem)
    simp only [mem, if_true, self]
    omega
  · simp only [mem, if_false]

theorem homeFresh (low : home i < fresh) :
    (if i ∈ set then fresh else home i) = fresh ↔ i ∈ set := by
  by_cases mem : i ∈ set
  · simp [mem]
  · simp only [mem, if_false, iff_false]
    omega

namespace Contracts

theorem flip (contracts : Contracts home live old new) :
    Contracts home live (fun i j => old j i) (fun x y => new y x) := by
  intro x y hx hy
  refine (contracts y x hy hx).trans ?_
  rw [ne_comm]
  exact and_congr_right fun _ => ⟨fun ⟨j, i, hj, hi, edge⟩ => ⟨i, j, hi, hj, edge⟩,
    fun ⟨i, j, hi, hj, edge⟩ => ⟨j, i, hj, hi, edge⟩⟩

theorem leaving (contracts : Contracts home live old new)
    (takeover : Takeover home live set fresh) (there : live y) (out : y ∉ set) :
    (∃ m ∈ set, new m y) ↔ ∃ i j, i ∈ set ∧ home j = y ∧ old i j := by
  constructor
  · intro ⟨m, mem, edge⟩
    obtain ⟨_, i, j, rfl, hj, origin⟩ := (contracts m y (takeover.within m mem) there).mp edge
    have self := takeover.own i (Or.inl mem)
    exact ⟨i, j, self ▸ mem, hj, origin⟩
  · intro ⟨i, j, mem, hj, origin⟩
    have other : i ≠ y := fun same => out (same ▸ mem)
    exact ⟨i, mem, (contracts i y (takeover.within i mem) there).mpr
      ⟨other, i, j, takeover.own i (Or.inr mem), hj, origin⟩⟩

theorem step (contracts : Contracts home live old new)
    (takeover : Takeover home live set fresh)
    (bounded : ∀ i j, old i j → home i < fresh ∧ home j < fresh)
    (inside : ∀ x y, new x y → x < fresh ∧ y < fresh)
    (added : ∀ x y, after x y ↔ new x y ∨ (y = fresh ∧ (live x ∧ x ∉ set) ∧ ∃ m ∈ set, new x m) ∨
      (x = fresh ∧ (live y ∧ y ∉ set) ∧ ∃ m ∈ set, new m y)) :
    Contracts (fun i => if i ∈ set then fresh else home i)
      (fun x => x = fresh ∨ live x ∧ x ∉ set) old after := by
  have noneOut : ∀ y, ¬ new fresh y := fun y edge => Nat.lt_irrefl _ (inside fresh y edge).1
  have noneIn : ∀ x, ¬ new x fresh := fun x edge => Nat.lt_irrefl _ (inside x fresh edge).2
  have notFresh : ∀ x, live x → x ≠ fresh := fun x there => Nat.ne_of_lt (takeover.above x there)
  intro x y hx hy
  rw [added]
  -- An edge at the fresh node is one that a member had; between old nodes nothing changes.
  rcases hx with rfl | ⟨hx, outX⟩ <;> rcases hy with rfl | ⟨hy, outY⟩
  · refine iff_of_false ?_ fun ⟨different, _⟩ => different rfl
    intro edge
    rcases edge with loop | ⟨_, ⟨there, _⟩, _⟩ | ⟨_, ⟨there, _⟩, _⟩
    · exact noneOut _ loop
    · exact notFresh _ there rfl
    · exact notFresh _ there rfl
  · constructor
    · intro edge
      have shared := (edge.resolve_left (noneOut y)).resolve_left fun h => notFresh y hy h.1
      obtain ⟨i, j, mem, hj, origin⟩ := (contracts.leaving takeover hy outY).mp shared.2.2
      exact ⟨(notFresh y hy).symm, i, j, if_pos mem, (takeover.homeOld hy outY).mpr hj, origin⟩
    · intro ⟨_, i, j, hi, hj, origin⟩
      have mem := (homeFresh (bounded i j origin).1).mp hi
      exact Or.inr (Or.inr ⟨rfl, ⟨hy, outY⟩, (contracts.leaving takeover hy outY).mpr
        ⟨i, j, mem, (takeover.homeOld hy outY).mp hj, origin⟩⟩)
  · constructor
    · intro edge
      have shared := (edge.resolve_left (noneIn x)).resolve_right fun h => notFresh x hx h.1
      obtain ⟨j, i, mem, hi, origin⟩ := (contracts.flip.leaving takeover hx outX).mp shared.2.2
      exact ⟨notFresh x hx, i, j, (takeover.homeOld hx outX).mpr hi, if_pos mem, origin⟩
    · intro ⟨_, i, j, hi, hj, origin⟩
      have mem := (homeFresh (bounded i j origin).2).mp hj
      exact Or.inr (Or.inl ⟨rfl, ⟨hx, outX⟩, (contracts.flip.leaving takeover hx outX).mpr
        ⟨j, i, mem, (takeover.homeOld hx outX).mp hi, origin⟩⟩)
  · rw [contracts x y hx hy]
    simp only [takeover.homeOld hx outX, takeover.homeOld hy outY]
    refine ⟨fun edge => ?_, Or.inl⟩
    rcases edge with edge | ⟨same, _⟩ | ⟨same, _⟩
    · exact edge
    · exact absurd same (notFresh y hy)
    · exact absurd same (notFresh x hx)

theorem congr (contracts : Contracts home live old new) {home' : Nat → Nat} {live' : Nat → Prop}
    (homes : ∀ i, home' i = home i) (lives : ∀ x, live' x → live x) :
    Contracts home' live' old new := by
  have same : home' = home := funext homes
  subst same
  exact fun x y hx hy => contracts x y (lives x hx) (lives y hy)

end Contracts

end

namespace Net
open OpNet.Graph

/-- The node that stands for operator `i` once each of `sets` has been replaced in turn. -/
def home (net : Net) (sets : List (List Nat)) (i : Nat) : Nat :=
  match sets.findIdx? (·.contains i) with
  | some k => net.ops.length + k
  | none => i

def Merged (net : Net) (sets : List (List Nat)) (x y : Nat) : Prop :=
  x ≠ y ∧ ∃ i j, net.home sets i = x ∧ net.home sets j = y ∧ (ofNet net).Before i j

section
variable {net : Net} {sets : List (List Nat)} {set : List Nat} {i j : Nat}

theorem homeCases (net : Net) (sets : List (List Nat)) (i : Nat) :
    ((∀ set ∈ sets, i ∉ set) ∧ net.home sets i = i) ∨
      ∃ k set, sets[k]? = some set ∧ i ∈ set ∧ net.home sets i = net.ops.length + k := by
  unfold home
  cases found : sets.findIdx? (·.contains i) with
  | none =>
    have free := List.findIdx?_eq_none_iff.mp found
    exact Or.inl ⟨fun set mem there => by simpa [there] using free set mem, rfl⟩
  | some k =>
    obtain ⟨inside, here, _⟩ := List.findIdx?_eq_some_iff_getElem.mp found
    exact Or.inr ⟨k, sets[k], List.getElem?_eq_getElem inside, by simpa using here, rfl⟩

theorem homeFree (free : ∀ set ∈ sets, i ∉ set) : net.home sets i = i := by
  rcases homeCases net sets i with ⟨_, same⟩ | ⟨k, set, at_, mem, _⟩
  · exact same
  · exact absurd mem (free set (List.mem_of_getElem? at_))

theorem homeAppend (net : Net) (apart : ∀ i ∈ set, ∀ other ∈ sets, i ∉ other) (i : Nat) :
    net.home (sets ++ [set]) i =
      if i ∈ set then net.ops.length + sets.length else net.home sets i := by
  unfold home
  rw [List.findIdx?_append]
  by_cases mem : i ∈ set
  · have none : sets.findIdx? (·.contains i) = none :=
      List.findIdx?_eq_none_iff.mpr fun other there => by simpa using apart i mem other there
    rw [none]
    simp [mem, List.findIdx?_cons]
  · simp [mem, List.findIdx?_cons]

theorem mergedPath (path : TransGen (ofNet net).Before i j) :
    net.home sets i = net.home sets j ∨
      TransGen (net.Merged sets) (net.home sets i) (net.home sets j) := by
  have edge : ∀ {a b}, (ofNet net).Before a b →
      ReflTransGen (net.Merged sets) (net.home sets a) (net.home sets b) := fun {a b} before => by
    by_cases same : net.home sets a = net.home sets b
    · rw [same]
    · exact ReflTransGen.single ⟨same, a, b, rfl, rfl, before⟩
  have all : ReflTransGen (net.Merged sets) (net.home sets i) (net.home sets j) := by
    induction path with
    | single before => exact edge before
    | tail _ before ih => exact ih.trans (edge before)
  exact (reflTransGen_iff_eq_or_transGen.mp all).imp_left Eq.symm

end

structure Separate (net : Net) (sets : List (List Nat)) : Prop where
  inRange : ∀ set ∈ sets, ∀ i ∈ set, i < net.ops.length
  apart : sets.Pairwise fun a b => ∀ i ∈ a, i ∉ b
  ascending : ∀ set ∈ sets, set.Pairwise (· < ·)

theorem Separate.sublist {net : Net} {sets fewer : List (List Nat)} (separate : net.Separate sets)
    (sub : fewer.Sublist sets) : net.Separate fewer where
  inRange set mem := separate.inRange set (sub.subset mem)
  apart := separate.apart.sublist sub
  ascending set mem := separate.ascending set (sub.subset mem)

theorem Separate.unique {net : Net} {sets : List (List Nat)} (separate : net.Separate sets)
    {k l i : Nat} {a b : List Nat} (ha : sets[k]? = some a) (hb : sets[l]? = some b) (inA : i ∈ a)
    (inB : i ∈ b) : k = l := by
  obtain ⟨hk, rfl⟩ := List.getElem?_eq_some_iff.mp ha
  obtain ⟨hl, rfl⟩ := List.getElem?_eq_some_iff.mp hb
  have apart := List.pairwise_iff_getElem.mp separate.apart
  rcases Nat.lt_trichotomy k l with less | same | greater
  · exact absurd inB (apart k l hk hl less i inA)
  · exact same
  · exact absurd inA (apart l k hl hk greater i inB)

theorem Separate.home {net : Net} {sets : List (List Nat)} (separate : net.Separate sets)
    {k i : Nat} {set : List Nat} (at_ : sets[k]? = some set) (mem : i ∈ set) :
    net.home sets i = net.ops.length + k := by
  rcases homeCases net sets i with ⟨free, _⟩ | ⟨l, other, there, member, same⟩
  · exact absurd mem (free set (List.mem_of_getElem? at_))
  · rw [same, separate.unique there at_ member mem]

structure Parts (net : Net) (groups : List Group) : Prop where
  separate : net.Separate (groups.map Group.members)
  covers : ∀ group ∈ groups, net.Covers group

theorem Parts.last {net : Net} {groups : List Group} {group : Group}
    (parts : net.Parts (groups ++ [group])) :
    net.Separate (groups.map Group.members ++ [group.members]) := by
  simpa using parts.separate

theorem Parts.inRange {net : Net} {groups : List Group} (parts : net.Parts groups) {group : Group}
    (mem : group ∈ groups) {i : Nat} (here : i ∈ group.members) : i < net.ops.length :=
  parts.separate.inRange _ (List.mem_map_of_mem mem) i here

structure Collapsed (net : Net) (groups : List Group) (g : Graph) : Prop where
  parts : net.Parts groups
  mirrored : g.Mirrored
  externalOutputs : g.externalOutputs = net.externalOutputs
  size : g.size = net.ops.length + groups.length
  op : ∀ i, (g.node? i).map Node.op = (net.ops ++ groups.map Group.op)[i]?
  active : ∀ i, g.isActive i = true ↔ i < g.size ∧ ∀ group ∈ groups, i ∉ group.members
  links : ∀ blob, Contracts (net.home (groups.map Group.members)) (fun i => g.isActive i = true)
    (fun i j => ⟨i, blob⟩ ∈ (ofNet net).parents j) (fun i j => ⟨i, blob⟩ ∈ g.parents j)
  orderings : Contracts (net.home (groups.map Group.members)) (fun i => g.isActive i = true)
    (fun i j => i ∈ (ofNet net).runsAfter j) (fun i j => i ∈ g.runsAfter j)

theorem beforeOfParent {net : Net} {i j : Nat} {blob : String}
    (edge : ⟨i, blob⟩ ∈ (ofNet net).parents j) : (ofNet net).Before i j :=
  Or.inl (Links.memNodes.mpr ⟨blob, edge⟩)

theorem collapsedOfNet (net : Net) : net.Collapsed [] (ofNet net) where
  parts := ⟨⟨by simp, List.Pairwise.nil, by simp⟩, by simp⟩
  mirrored := mirroredOfNet net
  externalOutputs := (sameNodesOfNet net).externalOutputs
  size := by simp
  op i := by simpa using opOfNet net i
  active i := by simp [isActiveOfNet]
  links blob x y _ _ := by
    constructor
    · intro edge
      have less := lessOfBefore (beforeOfParent edge)
      exact ⟨by omega, x, y, rfl, rfl, edge⟩
    · intro h
      obtain ⟨_, i, j, rfl, rfl, edge⟩ := h
      exact edge
  orderings x y _ _ := by
    constructor
    · intro ordering
      have less := lessOfBefore (Or.inr ordering)
      exact ⟨by omega, x, y, rfl, rfl, ordering⟩
    · intro h
      obtain ⟨_, i, j, rfl, rfl, ordering⟩ := h
      exact ordering

namespace Collapsed
variable {net : Net} {groups : List Group} {g : Graph} {i x y : Nat}

theorem homeOwn (low : net.home (groups.map Group.members) i < net.ops.length) :
    net.home (groups.map Group.members) i = i := by
  rcases homeCases net (groups.map Group.members) i with ⟨_, same⟩ | ⟨k, _, _, _, same⟩
  · exact same
  · omega

theorem homeOutside (free : ∀ group ∈ groups, i ∉ group.members) :
    net.home (groups.map Group.members) i = i :=
  homeFree (by simpa using free)

theorem activeHome (c : Collapsed net groups g) (bound : i < net.ops.length) :
    g.isActive (net.home (groups.map Group.members) i) = true := by
  have size := c.size
  rw [c.active]
  rcases homeCases net (groups.map Group.members) i with ⟨free, same⟩ | ⟨k, set, found, _, same⟩
  · rw [same]
    exact ⟨by omega, by simpa using free⟩
  · have inside := (List.getElem?_eq_some_iff.mp found).1
    rw [List.length_map] at inside
    refine ⟨by omega, fun group mem there => ?_⟩
    have := c.parts.inRange mem there
    omega

theorem homeBound (c : Collapsed net groups g) (bound : i < net.ops.length) :
    net.home (groups.map Group.members) i < g.size :=
  activeInRange (c.activeHome bound)

theorem linkOrigin (c : Collapsed net groups g) {blob : String} (hx : g.isActive x = true)
    (hy : g.isActive y = true) (edge : ⟨x, blob⟩ ∈ g.parents y) :
    ∃ i j, net.home (groups.map Group.members) i = x ∧ net.home (groups.map Group.members) j = y ∧
      net.Reads j blob ∧ net.LastWriter blob i j := by
  obtain ⟨_, i, j, hi, hj, origin⟩ := (c.links blob x y hx hy).mp edge
  exact ⟨i, j, hi, hj, memParentsOfNet.mp origin⟩

section
variable {set : List Nat} (separate : net.Separate (groups.map Group.members ++ [set]))
include separate

theorem bound (mem : i ∈ set) : i < net.ops.length := separate.inRange set (by simp) i mem

theorem free (mem : i ∈ set) : ∀ other ∈ groups.map Group.members, i ∉ other :=
  fun other there here =>
    (List.pairwise_append.mp separate.apart).2.2 other there set (by simp) i here mem

theorem own (mem : net.home (groups.map Group.members) i ∈ set ∨ i ∈ set) :
    net.home (groups.map Group.members) i = i := by
  rcases mem with home | here
  · exact homeOwn (bound separate home)
  · exact homeFree (free separate here)

theorem activeMember (c : Collapsed net groups g) (mem : i ∈ set) : g.isActive i = true :=
  own separate (Or.inr mem) ▸ c.activeHome (bound separate mem)

end

section
variable {group : Group} {members : List Nat}

theorem enters (c : Collapsed net groups g) (parts : net.Parts (groups ++ [group]))
    {blob : String} (hx : g.isActive x = true) (out : x ∉ group.members) (mem : y ∈ group.members)
    (edge : ⟨x, blob⟩ ∈ g.parents y) : blob ∈ group.op.inputs := by
  obtain ⟨i, j, rfl, rfl, reads, last⟩ := c.linkOrigin hx (activeMember parts.last c mem) edge
  have self := own parts.last (Or.inl mem)
  rw [self] at mem
  refine (parts.covers group (by simp)).entering j mem blob reads fun w member other => ?_
  have same := last.unique other
  subst same
  rw [own parts.last (Or.inr member)] at out
  exact out member

theorem leaves (c : Collapsed net groups g) (parts : net.Parts (groups ++ [group]))
    {blob : String} (hy : g.isActive y = true) (out : y ∉ group.members) (mem : x ∈ group.members)
    (edge : ⟨x, blob⟩ ∈ g.parents y) : blob ∈ group.op.outputs := by
  obtain ⟨i, j, rfl, rfl, reads, last⟩ := c.linkOrigin (activeMember parts.last c mem) hy edge
  have self := own parts.last (Or.inl mem)
  rw [self] at mem
  refine (parts.covers group (by simp)).leaving i mem j blob (fun member => ?_) reads last
  rw [own parts.last (Or.inr member)] at out
  exact out member

theorem contract (c : Collapsed net groups g) (parts : net.Parts (groups ++ [group]))
    (same : ∀ i, i ∈ members ↔ i ∈ group.members) {old new after : Nat → Nat → Prop}
    (contracts : Contracts (net.home (groups.map Group.members)) (fun i => g.isActive i = true)
      old new)
    (before : ∀ i j, old i j → (ofNet net).Before i j)
    (inside : ∀ x y, new x y → x < g.size ∧ y < g.size)
    (added : ∀ x y, after x y ↔ new x y ∨
      (y = g.size ∧ (g.isActive x = true ∧ x ∉ group.members) ∧ ∃ m ∈ group.members, new x m) ∨
      (x = g.size ∧ (g.isActive y = true ∧ y ∉ group.members) ∧ ∃ m ∈ group.members, new m y)) :
    Contracts (net.home ((groups ++ [group]).map Group.members))
      (fun i => (g.replaced members group.op).isActive i = true) old after := by
  have takeover : Takeover (net.home (groups.map Group.members)) (fun i => g.isActive i = true)
      group.members g.size :=
    ⟨fun i => own parts.last, fun x => activeMember parts.last c, fun x => activeInRange⟩
  have stepped := contracts.step takeover (fun i j edge => ?_) inside added
  · refine stepped.congr (fun i => ?_) fun x hx => ?_
    · rw [List.map_append, List.map_singleton, homeAppend, List.length_map, c.size]
      exact fun i => free parts.last
    · simpa [isActiveReplaced, same] using hx
  · have less := lessOfBefore (before i j edge)
    have top := inRangeOfBefore (before i j edge)
    exact ⟨c.homeBound (by omega), c.homeBound top⟩

theorem opReplaced (c : Collapsed net groups g) (group : Group) (members : List Nat) (i : Nat) :
    ((g.replaced members group.op).node? i).map Node.op =
      (net.ops ++ (groups ++ [group]).map Group.op)[i]? := by
  have length : (net.ops ++ groups.map Group.op).length = net.ops.length + groups.length := by
    simp
  rw [Graph.opReplaced, c.op, c.size, List.map_append, ← List.append_assoc, ← length]
  by_cases last : i = (net.ops ++ groups.map Group.op).length
  · subst last
    simp
  · rw [if_neg last]
    by_cases old : i < (net.ops ++ groups.map Group.op).length
    · rw [List.getElem?_append_left old]
    · rw [List.getElem?_eq_none (by omega), List.getElem?_eq_none]
      rw [List.length_append, List.map_singleton, List.length_singleton]
      omega

theorem activeReplaced (c : Collapsed net groups g) (parts : net.Parts (groups ++ [group]))
    (same : ∀ i, i ∈ members ↔ i ∈ group.members) (i : Nat) :
    (g.replaced members group.op).isActive i = true ↔
      i < g.size + 1 ∧ ∀ other ∈ groups ++ [group], i ∉ other.members := by
  have size := c.size
  rw [isActiveReplaced, Bool.or_eq_true, decide_eq_true_eq, Bool.and_eq_true, c.active]
  simp only [Bool.not_eq_true', List.contains_eq_mem, decide_eq_false_iff_not, same,
    List.forall_mem_append, List.forall_mem_singleton]
  constructor
  · intro h
    rcases h with rfl | ⟨⟨inside, free⟩, out⟩
    · refine ⟨by omega, fun other there here => ?_, fun here => ?_⟩
      · have := c.parts.inRange there here
        omega
      · have := bound parts.last here
        omega
    · exact ⟨by omega, free, out⟩
  · intro ⟨inside, free, out⟩
    by_cases last : i = g.size
    · exact Or.inl last
    · exact Or.inr ⟨⟨by omega, free⟩, out⟩

theorem replace (c : Collapsed net groups g) (parts : net.Parts (groups ++ [group]))
    (same : ∀ i, i ∈ members ↔ i ∈ group.members) :
    Collapsed net (groups ++ [group]) (g.replaced members group.op) where
  parts := parts
  mirrored := c.mirrored.replaced members group.op
  externalOutputs := (frameReplaced g members group.op).2.2.trans c.externalOutputs
  size := by rw [sizeReplaced, c.size, List.length_append, List.length_singleton, Nat.add_assoc]
  op := c.opReplaced group members
  active := by
    rw [sizeReplaced]
    exact c.activeReplaced parts same
  links blob := by
    refine c.contract parts same (c.links blob) (fun i j => beforeOfParent)
      (fun x y => c.mirrored.linkInRange) fun x y => ?_
    rw [memParentsReplaced, memIncoming, memOutgoing]
    simp only [isOutsideIff, same, c.mirrored.links]
    refine or_congr_right (or_congr ?_ ?_)
    · constructor
      · intro h
        obtain ⟨new, ⟨⟨out, active⟩, shared⟩, _⟩ := h
        exact ⟨new, ⟨active, out⟩, shared⟩
      · intro h
        obtain ⟨new, ⟨active, out⟩, m, mem, edge⟩ := h
        exact ⟨new, ⟨⟨out, active⟩, m, mem, edge⟩, c.enters parts active out mem edge⟩
    · constructor
      · intro h
        obtain ⟨new, ⟨⟨out, active⟩, shared⟩, _⟩ := h
        exact ⟨new, ⟨active, out⟩, shared⟩
      · intro h
        obtain ⟨new, ⟨active, out⟩, m, mem, edge⟩ := h
        exact ⟨new, ⟨⟨out, active⟩, m, mem, edge⟩, c.leaves parts active out mem edge⟩
  orderings := by
    refine c.contract parts same c.orderings (fun i j => Or.inr)
      (fun x y => c.mirrored.orderingInRange) fun x y => ?_
    rw [memRunsAfterReplaced, memEarlier, memLater]
    simp only [isOutsideIff, same, c.mirrored.orderings, and_comm (a := _ ∉ group.members)]

end

theorem waitsIff (c : Collapsed net groups g) :
    g.Waits x y ↔ net.Merged (groups.map Group.members) x y := by
  constructor
  · intro h
    obtain ⟨hx, hy, parent | ordering⟩ := h
    · obtain ⟨blob, edge⟩ := Links.memNodes.mp parent
      obtain ⟨different, i, j, hi, hj, origin⟩ := (c.links blob x y hx hy).mp edge
      exact ⟨different, i, j, hi, hj, beforeOfParent origin⟩
    · obtain ⟨different, i, j, hi, hj, origin⟩ := (c.orderings x y hx hy).mp ordering
      exact ⟨different, i, j, hi, hj, Or.inr origin⟩
  · intro h
    obtain ⟨different, i, j, rfl, rfl, before⟩ := h
    have less := lessOfBefore before
    have top := inRangeOfBefore before
    have hx := c.activeHome (show i < net.ops.length by omega)
    have hy := c.activeHome top
    refine ⟨hx, hy, ?_⟩
    rcases before with parent | ordering
    · obtain ⟨blob, edge⟩ := Links.memNodes.mp parent
      exact Or.inl (Links.memNodes.mpr ⟨blob, (c.links blob _ _ hx hy).mpr
        ⟨different, i, j, rfl, rfl, edge⟩⟩)
    · exact Or.inr ((c.orderings _ _ hx hy).mpr ⟨different, i, j, rfl, rfl, ordering⟩)

theorem orderOkIff (c : Collapsed net groups g) :
    (∃ order, g.topologicalOrder = .ok order) ↔
      Acyclic (net.Merged (groups.map Group.members)) := by
  have same : g.Waits = net.Merged (groups.map Group.members) :=
    funext fun x => funext fun y => propext c.waitsIff
  rw [topologicalOrderOkIff c.mirrored, same]

end Collapsed

end Net

end OpNet
