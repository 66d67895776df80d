import OpNet.Graph.Edit

/-!
Adjacency seen from both ends. Every edge stands at its source and at its target, every ordering
at both of its nodes, and no ordering stands twice. Adding edges and orderings between nodes of a
graph keeps this, and changes nothing else.
-/
namespace OpNet.Graph

theorem outOfRange {g : Graph} {i : Nat} (out : g.size ≤ i) :
    g.parents i = [] ∧ g.children i = [] ∧ g.runsAfter i = [] ∧ g.runsBefore i = [] := by
  simp [parents, children, runsAfter, runsBefore, noNodeIff.mpr out]

theorem inRangeOfParent {g : Graph} {i : Nat} {l : Link} (mem : l ∈ g.parents i) : i < g.size := by
  apply Nat.lt_of_not_le
  intro out
  simp [(outOfRange out).1] at mem

theorem inRangeOfEarlier {g : Graph} {i j : Nat} (mem : j ∈ g.runsAfter i) : i < g.size := by
  apply Nat.lt_of_not_le
  intro out
  simp [(outOfRange out).2.2.1] at mem

theorem sortedAfterPrecede {g : Graph} {first last i : Nat}
    (sorted : Ascending.Sorted (g.runsAfter i)) :
    Ascending.Sorted ((g.precede first last).runsAfter i) := by
  simp only [runsAfter, precede, nodeModify] at sorted ⊢
  cases found : g.node? i with
  | none => by_cases last = i <;> by_cases first = i <;> simp_all
  | some node =>
    rw [found] at sorted
    by_cases here : last = i
    · have grown := Ascending.sortedInsert (a := first) sorted
      by_cases there : first = i
      · subst there
        simpa [here, Node.withEarlier, Node.withLater] using grown
      · simpa [here, there, Node.withEarlier] using grown
    · by_cases there : first = i <;> simpa [here, there, Node.withLater] using sorted

theorem sortedBeforePrecede {g : Graph} {first last i : Nat}
    (sorted : Ascending.Sorted (g.runsBefore i)) :
    Ascending.Sorted ((g.precede first last).runsBefore i) := by
  simp only [runsBefore, precede, nodeModify] at sorted ⊢
  cases found : g.node? i with
  | none => by_cases last = i <;> by_cases first = i <;> simp_all
  | some node =>
    rw [found] at sorted
    by_cases here : first = i
    · have grown := Ascending.sortedInsert (a := last) sorted
      by_cases there : last = i
      · subst there
        simpa [here, Node.withEarlier, Node.withLater] using grown
      · simpa [here, there, Node.withLater] using grown
    · by_cases there : last = i <;> simpa [here, there, Node.withEarlier] using sorted

/-! Deactivating and adding nodes leave all neighbour sets as they are. -/

theorem elimWithInactive {g : Graph} {members : List Nat} {i : Nat} {view : Node → α} {missing : α}
    (same : ∀ node, view node.deactivated = view node) :
    ((g.withInactive members).node? i).elim missing view = (g.node? i).elim missing view := by
  unfold withInactive
  induction members generalizing g with
  | nil => rfl
  | cons m rest ih => rw [List.foldl_cons, ih, elimModify same]

theorem elimPush {g : Graph} {op : Operator} {i : Nat} (view : Node → α) :
    ((g.push op).node? i).elim (view { op }) view = (g.node? i).elim (view { op }) view := by
  rw [nodePush]
  split
  · rename_i new
    simp [noNodeIff.mpr (Nat.le_of_eq new.symm)]
  · rfl

section
variable (g : Graph) (members : List Nat) (op : Operator) (i : Nat)

@[simp] theorem parentsWithInactive : (g.withInactive members).parents i = g.parents i :=
  elimWithInactive fun _ => rfl

@[simp] theorem childrenWithInactive : (g.withInactive members).children i = g.children i :=
  elimWithInactive fun _ => rfl

@[simp] theorem runsAfterWithInactive : (g.withInactive members).runsAfter i = g.runsAfter i :=
  elimWithInactive fun _ => rfl

@[simp] theorem runsBeforeWithInactive : (g.withInactive members).runsBefore i = g.runsBefore i :=
  elimWithInactive fun _ => rfl

@[simp] theorem parentsPush : (g.push op).parents i = g.parents i :=
  elimPush Node.parents

@[simp] theorem childrenPush : (g.push op).children i = g.children i :=
  elimPush Node.children

@[simp] theorem runsAfterPush : (g.push op).runsAfter i = g.runsAfter i :=
  elimPush Node.runsAfter

@[simp] theorem runsBeforePush : (g.push op).runsBefore i = g.runsBefore i :=
  elimPush Node.runsBefore

end

structure SameNodes (g h : Graph) : Prop where
  name : h.name = g.name
  externalInputs : h.externalInputs = g.externalInputs
  externalOutputs : h.externalOutputs = g.externalOutputs
  size : h.size = g.size
  op : ∀ i, (h.node? i).map Node.op = (g.node? i).map Node.op
  active : ∀ i, h.isActive i = g.isActive i

namespace SameNodes
variable {g h k : Graph}

theorem refl (g : Graph) : SameNodes g g := ⟨rfl, rfl, rfl, rfl, fun _ => rfl, fun _ => rfl⟩

theorem symm (same : SameNodes g h) : SameNodes h g where
  name := same.name.symm
  externalInputs := same.externalInputs.symm
  externalOutputs := same.externalOutputs.symm
  size := same.size.symm
  op i := (same.op i).symm
  active i := (same.active i).symm

theorem trans (first : SameNodes g h) (last : SameNodes h k) : SameNodes g k where
  name := last.name.trans first.name
  externalInputs := last.externalInputs.trans first.externalInputs
  externalOutputs := last.externalOutputs.trans first.externalOutputs
  size := last.size.trans first.size
  op i := (last.op i).trans (first.op i)
  active i := (last.active i).trans (first.active i)

theorem modify (g : Graph) (i : Nat) (change : Node → Node)
    (op : ∀ node, (change node).op = node.op)
    (active : ∀ node, (change node).active = node.active) : SameNodes g (g.modify i change) where
  name := rfl
  externalInputs := rfl
  externalOutputs := rfl
  size := sizeModify g i change
  op j := by
    rw [nodeModify]
    cases g.node? j <;> split <;> simp [op]
  active j := by
    rw [isActiveElim, isActiveElim, elimModify active]

theorem link (g : Graph) (source target : Nat) (blob : String) :
    SameNodes g (g.link source target blob) :=
  (modify g source (Node.withChild · ⟨target, blob⟩) (fun _ => rfl) fun _ => rfl).trans
    (modify _ target (Node.withParent · ⟨source, blob⟩) (fun _ => rfl) fun _ => rfl)

theorem precede (g : Graph) (first last : Nat) : SameNodes g (g.precede first last) :=
  (modify g first (Node.withLater · last) (fun _ => rfl) fun _ => rfl).trans
    (modify _ last (Node.withEarlier · first) (fun _ => rfl) fun _ => rfl)

theorem foldl {α : Type} {step : Graph → α → Graph} (each : ∀ h x, SameNodes h (step h x))
    (xs : List α) (g : Graph) : SameNodes g (xs.foldl step g) := by
  induction xs generalizing g with
  | nil => exact refl g
  | cons x rest ih => exact (each g x).trans (ih (step g x))

theorem ext (same : SameNodes g h) (parents : ∀ i, h.parents i = g.parents i)
    (children : ∀ i, h.children i = g.children i) (after : ∀ i, h.runsAfter i = g.runsAfter i)
    (before : ∀ i, h.runsBefore i = g.runsBefore i) : h = g := by
  have nodes : ∀ i, h.node? i = g.node? i := fun i => by
    have op := same.op i
    have active := same.active i
    have parents := parents i
    have children := children i
    have after := after i
    have before := before i
    simp only [Graph.parents, Graph.children, Graph.runsAfter, Graph.runsBefore,
      isActive] at active parents children after before
    cases old : g.node? i with
    | none => simpa [old] using op
    | some a =>
      cases new : h.node? i with
      | none => simp [old, new] at op
      | some b =>
        simp only [old, new, Option.map_some, Option.some.injEq, Option.any_some,
          Option.elim_some] at op active parents children after before
        cases a
        cases b
        simp_all
  have arrays : h.nodes = g.nodes := Array.ext_getElem? nodes
  have name := same.name
  have inputs := same.externalInputs
  have outputs := same.externalOutputs
  cases g
  cases h
  simp_all

end SameNodes

structure Mirrored (g : Graph) : Prop where
  links : ∀ i j blob, ⟨j, blob⟩ ∈ g.children i ↔ ⟨i, blob⟩ ∈ g.parents j
  orderings : ∀ i j, j ∈ g.runsBefore i ↔ i ∈ g.runsAfter j
  after : ∀ i, Ascending.Sorted (g.runsAfter i)
  before : ∀ i, Ascending.Sorted (g.runsBefore i)

namespace Mirrored
variable {g : Graph}

theorem linkInRange (mirrored : Mirrored g) {i j : Nat} {blob : String}
    (edge : ⟨i, blob⟩ ∈ g.parents j) : i < g.size ∧ j < g.size := by
  refine ⟨Nat.lt_of_not_le fun out => ?_, inRangeOfParent edge⟩
  have back := (mirrored.links i j blob).mpr edge
  simp [(outOfRange out).2.1] at back

theorem orderingInRange (mirrored : Mirrored g) {i j : Nat} (ordering : i ∈ g.runsAfter j) :
    i < g.size ∧ j < g.size := by
  refine ⟨Nat.lt_of_not_le fun out => ?_, inRangeOfEarlier ordering⟩
  have back := (mirrored.orderings i j).mpr ordering
  simp [(outOfRange out).2.2.2] at back

theorem link (mirrored : Mirrored g) {source target : Nat} (hs : source < g.size)
    (ht : target < g.size) (blob : String) : Mirrored (g.link source target blob) where
  links := by
    intro i j label
    rw [memChildrenLink, memParentsLink, mirrored.links]
    constructor
    · intro h
      rcases h with old | ⟨rfl, _, same⟩
      · exact Or.inl old
      · cases same
        exact Or.inr ⟨rfl, ht, rfl⟩
    · intro h
      rcases h with old | ⟨rfl, _, same⟩
      · exact Or.inl old
      · cases same
        exact Or.inr ⟨rfl, hs, rfl⟩
  orderings := by simpa using mirrored.orderings
  after := by simpa using mirrored.after
  before := by simpa using mirrored.before

theorem precede (mirrored : Mirrored g) {first last : Nat} (hf : first < g.size)
    (hl : last < g.size) : Mirrored (g.precede first last) where
  links := by simpa using mirrored.links
  orderings := by
    intro i j
    rw [memRunsBeforePrecede, memRunsAfterPrecede, mirrored.orderings]
    constructor
    · intro h
      rcases h with old | ⟨rfl, _, rfl⟩
      · exact Or.inl old
      · exact Or.inr ⟨rfl, hl, rfl⟩
    · intro h
      rcases h with old | ⟨rfl, _, rfl⟩
      · exact Or.inl old
      · exact Or.inr ⟨rfl, hf, rfl⟩
  after i := sortedAfterPrecede (mirrored.after i)
  before i := sortedBeforePrecede (mirrored.before i)

theorem withInactive (mirrored : Mirrored g) (members : List Nat) :
    Mirrored (g.withInactive members) where
  links := by simpa using mirrored.links
  orderings := by simpa using mirrored.orderings
  after := by simpa using mirrored.after
  before := by simpa using mirrored.before

theorem push (mirrored : Mirrored g) (op : Operator) : Mirrored (g.push op) where
  links := by simpa using mirrored.links
  orderings := by simpa using mirrored.orderings
  after := by simpa using mirrored.after
  before := by simpa using mirrored.before

end Mirrored

/-! Many edges, and many orderings, added in turn. -/

section
variable {α : Type} {source target : α → Nat} {label : α → String} {first last : α → Nat}

theorem sizeLinkAll (g : Graph) (xs : List α) :
    (xs.foldl (fun h x => h.link (source x) (target x) (label x)) g).size = g.size := by
  induction xs generalizing g with
  | nil => rfl
  | cons x rest ih => rw [List.foldl_cons, ih, sizeLink]

theorem memParentsLinkAll {g : Graph} {xs : List α} {i : Nat} {l : Link} :
    l ∈ (xs.foldl (fun h x => h.link (source x) (target x) (label x)) g).parents i ↔
      l ∈ g.parents i ∨ (i < g.size ∧ ∃ x ∈ xs, target x = i ∧ l = ⟨source x, label x⟩) := by
  induction xs generalizing g with
  | nil => simp
  | cons x rest ih =>
    rw [List.foldl_cons, ih, memParentsLink, sizeLink]
    constructor
    · intro h
      rcases h with (old | ⟨rfl, inside, same⟩) | ⟨inside, y, mem, here⟩
      · exact Or.inl old
      · exact Or.inr ⟨inside, x, List.mem_cons_self, rfl, same⟩
      · exact Or.inr ⟨inside, y, List.mem_cons_of_mem _ mem, here⟩
    · intro h
      rcases h with old | ⟨inside, y, mem, here⟩
      · exact Or.inl (Or.inl old)
      · rcases List.mem_cons.mp mem with rfl | later
        · exact Or.inl (Or.inr ⟨here.1.symm, inside, here.2⟩)
        · exact Or.inr ⟨inside, y, later, here⟩

theorem runsAfterLinkAll (g : Graph) (xs : List α) (i : Nat) :
    (xs.foldl (fun h x => h.link (source x) (target x) (label x)) g).runsAfter i =
      g.runsAfter i := by
  induction xs generalizing g with
  | nil => rfl
  | cons x rest ih => rw [List.foldl_cons, ih, runsAfterLink]

theorem Mirrored.linkAll {g : Graph} (mirrored : Mirrored g) {xs : List α}
    (inside : ∀ x ∈ xs, source x < g.size ∧ target x < g.size) :
    Mirrored (xs.foldl (fun h x => h.link (source x) (target x) (label x)) g) := by
  induction xs generalizing g with
  | nil => exact mirrored
  | cons x rest ih =>
    obtain ⟨here, later⟩ := List.forall_mem_cons.mp inside
    exact ih (mirrored.link here.1 here.2 _) (by simpa using later)

theorem sizePrecedeAll (g : Graph) (xs : List α) :
    (xs.foldl (fun h x => h.precede (first x) (last x)) g).size = g.size := by
  induction xs generalizing g with
  | nil => rfl
  | cons x rest ih => rw [List.foldl_cons, ih, sizePrecede]

theorem parentsPrecedeAll (g : Graph) (xs : List α) (i : Nat) :
    (xs.foldl (fun h x => h.precede (first x) (last x)) g).parents i = g.parents i := by
  induction xs generalizing g with
  | nil => rfl
  | cons x rest ih => rw [List.foldl_cons, ih, parentsPrecede]

theorem memRunsAfterPrecedeAll {g : Graph} {xs : List α} {i j : Nat} :
    j ∈ (xs.foldl (fun h x => h.precede (first x) (last x)) g).runsAfter i ↔
      j ∈ g.runsAfter i ∨ (i < g.size ∧ ∃ x ∈ xs, last x = i ∧ j = first x) := by
  induction xs generalizing g with
  | nil => simp
  | cons x rest ih =>
    rw [List.foldl_cons, ih, memRunsAfterPrecede, sizePrecede]
    constructor
    · intro h
      rcases h with (old | ⟨rfl, inside, same⟩) | ⟨inside, y, mem, here⟩
      · exact Or.inl old
      · exact Or.inr ⟨inside, x, List.mem_cons_self, rfl, same⟩
      · exact Or.inr ⟨inside, y, List.mem_cons_of_mem _ mem, here⟩
    · intro h
      rcases h with old | ⟨inside, y, mem, here⟩
      · exact Or.inl (Or.inl old)
      · rcases List.mem_cons.mp mem with rfl | later
        · exact Or.inl (Or.inr ⟨here.1.symm, inside, here.2⟩)
        · exact Or.inr ⟨inside, y, later, here⟩

theorem Mirrored.precedeAll {g : Graph} (mirrored : Mirrored g) {xs : List α}
    (inside : ∀ x ∈ xs, first x < g.size ∧ last x < g.size) :
    Mirrored (xs.foldl (fun h x => h.precede (first x) (last x)) g) := by
  induction xs generalizing g with
  | nil => exact mirrored
  | cons x rest ih =>
    obtain ⟨here, later⟩ := List.forall_mem_cons.mp inside
    exact ih (mirrored.precede here.1 here.2) (by simpa using later)

end

end OpNet.Graph
