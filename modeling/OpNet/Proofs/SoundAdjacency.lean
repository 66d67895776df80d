import OpNet.Proofs.Substitution

/-!
Adjacency under any sequence of edits. Main statement: whatever is called, with whatever arguments,
the two ends of every edge and of every ordering agree, neighbours are other nodes of the graph, no
node goes, and no inactive node comes back.
-/
namespace OpNet

namespace Links

def entries (links : Links) : List (Nat × List String) :=
  links.nodes.map fun node => (node, links.labels node)

theorem labelsIff {links : Links} {node : Nat} :
    node ∈ links.nodes ↔ links.labels node ≠ [] := by
  rw [memNodes]
  constructor
  · intro h none
    obtain ⟨label, mem⟩ := h
    rw [← memLabels, none] at mem
    cases mem
  · intro some
    obtain ⟨label, mem⟩ := List.exists_mem_of_ne_nil _ some
    exact ⟨label, memLabels.mp mem⟩

theorem memEntries {links : Links} {node : Nat} {labels : List String} :
    (node, labels) ∈ links.entries ↔ labels = links.labels node ∧ labels ≠ [] := by
  simp only [entries, List.mem_map, Prod.mk.injEq]
  constructor
  · intro h
    obtain ⟨other, known, rfl, rfl⟩ := h
    exact ⟨rfl, labelsIff.mp known⟩
  · intro h
    obtain ⟨rfl, some⟩ := h
    exact ⟨node, labelsIff.mpr some, rfl, rfl⟩

theorem sortedLabels {links : Links} (sorted : Ascending.Sorted links) (node : Nat) :
    Ascending.Sorted (links.labels node) := by
  unfold labels
  refine List.pairwise_map.mpr ((List.Pairwise.filter _ sorted).imp_of_mem ?_)
  intro a b left right less
  have hereA : a.node = node := by simpa using (List.mem_filter.mp left).2
  have hereB : b.node = node := by simpa using (List.mem_filter.mp right).2
  have both : (compare a.node b.node).then (compare a.label b.label) = .lt := less
  have same : compare node node = .eq := Std.ReflCmp.compare_self
  rwa [hereA, hereB, same] at both

end Links

namespace Graph

/-! Links stay sorted, so that a set of labels has one written form. -/

structure Tidy (g : Graph) : Prop where
  parents : ∀ i, Ascending.Sorted (g.parents i)
  children : ∀ i, Ascending.Sorted (g.children i)

theorem elimModifyKeeps {g : Graph} {i j : Nat} {change : Node → Node} {view : Node → α}
    {missing : α} {good : α → Prop} (keeps : ∀ node, good (view node) → good (view (change node)))
    (old : good ((g.node? j).elim missing view)) :
    good (((g.modify i change).node? j).elim missing view) := by
  rw [nodeModify]
  cases found : g.node? j with
  | none => simpa [found] using old
  | some node =>
    rw [found] at old
    split
    · exact keeps node old
    · exact old

namespace Tidy
variable {g : Graph}

theorem modify (tidy : Tidy g) (i : Nat) (change : Node → Node)
    (parents : ∀ node, Ascending.Sorted node.parents → Ascending.Sorted (change node).parents)
    (children : ∀ node, Ascending.Sorted node.children → Ascending.Sorted (change node).children) :
    Tidy (g.modify i change) where
  parents j := elimModifyKeeps parents (tidy.parents j)
  children j := elimModifyKeeps children (tidy.children j)

theorem link (tidy : Tidy g) (source target : Nat) (blob : String) :
    Tidy (g.link source target blob) := by
  have tail : Tidy (g.modify source (Node.withChild · ⟨target, blob⟩)) :=
    tidy.modify _ _ (fun _ sorted => sorted) fun _ sorted => Ascending.sortedInsert sorted
  exact tail.modify _ _ (fun _ sorted => Ascending.sortedInsert sorted) fun _ sorted => sorted

theorem unlink (tidy : Tidy g) (source target : Nat) : Tidy (g.unlink source target) := by
  have tail : Tidy (g.modify source fun node =>
      { node with children := node.children.without target }) :=
    tidy.modify _ _ (fun _ sorted => sorted) fun _ sorted => List.Pairwise.filter _ sorted
  exact tail.modify _ _ (fun _ sorted => List.Pairwise.filter _ sorted) fun _ sorted => sorted

theorem precede (tidy : Tidy g) (first last : Nat) : Tidy (g.precede first last) where
  parents := by simpa using tidy.parents
  children := by simpa using tidy.children

theorem withInactive (tidy : Tidy g) (members : List Nat) : Tidy (g.withInactive members) where
  parents := by simpa using tidy.parents
  children := by simpa using tidy.children

theorem push (tidy : Tidy g) (op : Operator) : Tidy (g.push op) where
  parents := by simpa using tidy.parents
  children := by simpa using tidy.children

theorem foldl {α : Type} {step : Graph → α → Graph} (each : ∀ h x, Tidy h → Tidy (step h x))
    (xs : List α) (tidy : Tidy g) : Tidy (xs.foldl step g) := by
  induction xs generalizing g with
  | nil => exact tidy
  | cons x rest ih => exact ih (each g x tidy)

theorem attach (tidy : Tidy g) (from_ : Graph) (members : List Nat) (op : Operator) (i : Nat) :
    Tidy (from_.attach members op i g) := by
  have fed := tidy.foldl (fun h (l : Link) known => known.link l.node i l.label)
    ((from_.incoming members).filter fun l => op.reads l.label)
  have feeding := fed.foldl (fun h (l : Link) known => known.link i l.node l.label)
    ((from_.outgoing members).filter fun l => op.writes l.label)
  have after := feeding.foldl (fun h first known => known.precede first i) (from_.earlier members)
  exact after.foldl (fun h last known => known.precede i last) (from_.later members)

end Tidy

theorem Scan.tidyFoldl {α : Type} {step : Scan → α → Scan}
    (each : ∀ s x, Tidy s.graph → Tidy (step s x).graph) (xs : List α) {s : Scan}
    (tidy : Tidy s.graph) : Tidy (xs.foldl step s).graph := by
  induction xs generalizing s with
  | nil => exact tidy
  | cons x rest ih => exact ih (each s x tidy)

theorem Scan.tidyRead (i : Nat) (s : Scan) (blob : String) (tidy : Tidy s.graph) :
    Tidy (s.read i blob).graph := by
  unfold read
  cases s.writer? blob with
  | none => exact tidy
  | some writer => exact tidy.link writer i blob

theorem Scan.tidyWrite (i : Nat) (s : Scan) (blob : String) (tidy : Tidy s.graph) :
    Tidy (s.write i blob).graph :=
  tidy.foldl (fun _ first known => known.precede first i) _

theorem tidyOfNet (net : Net) : Tidy (ofNet net) := by
  have start : Tidy (isolated net) := by
    have bare : ∀ i, (isolated net).parents i = [] ∧ (isolated net).children i = [] := fun i => by
      simp only [parents, children, isolatedNode]
      cases net.ops[i]? <;> exact ⟨rfl, rfl⟩
    exact ⟨fun i => (bare i).1 ▸ List.Pairwise.nil, fun i => (bare i).2 ▸ List.Pairwise.nil⟩
  refine Scan.tidyFoldl (fun s entry tidy => ?_) net.ops.zipIdx start
  exact Scan.tidyFoldl (Scan.tidyWrite entry.2) entry.1.outputs
    (Scan.tidyFoldl (Scan.tidyRead entry.2) entry.1.inputs tidy)

structure Sound (g : Graph) : Prop extends Mirrored g where
  tidy : Tidy g
  noLoop : ∀ i blob, ⟨i, blob⟩ ∉ g.parents i
  noSelfOrdering : ∀ i, i ∉ g.runsAfter i

theorem memParentsUnlink {g : Graph} {source target i : Nat} {l : Link} :
    l ∈ (g.unlink source target).parents i ↔
      l ∈ g.parents i ∧ ¬ (i = target ∧ l.node = source) := by
  simp only [parents, unlink, nodeModify]
  cases g.node? i with
  | none => by_cases ht : target = i <;> by_cases hs : source = i <;> simp [ht, hs]
  | some node =>
    by_cases ht : target = i <;> by_cases hs : source = i <;>
      simp [ht, hs, Links.memWithout, eq_comm (a := i)]

theorem memChildrenUnlink {g : Graph} {source target i : Nat} {l : Link} :
    l ∈ (g.unlink source target).children i ↔
      l ∈ g.children i ∧ ¬ (i = source ∧ l.node = target) := by
  simp only [children, unlink, nodeModify]
  cases g.node? i with
  | none => by_cases ht : target = i <;> by_cases hs : source = i <;> simp [ht, hs]
  | some node =>
    by_cases ht : target = i <;> by_cases hs : source = i <;>
      simp [ht, hs, Links.memWithout, eq_comm (a := i)]

@[simp] theorem runsAfterUnlink (g : Graph) (source target i : Nat) :
    (g.unlink source target).runsAfter i = g.runsAfter i := by
  simp only [runsAfter, unlink]
  rw [elimModify, elimModify] <;> exact fun _ => rfl

@[simp] theorem runsBeforeUnlink (g : Graph) (source target i : Nat) :
    (g.unlink source target).runsBefore i = g.runsBefore i := by
  simp only [runsBefore, unlink]
  rw [elimModify, elimModify] <;> exact fun _ => rfl

theorem SameNodes.unlink (g : Graph) (source target : Nat) :
    SameNodes g (g.unlink source target) := by
  have tail : SameNodes g (g.modify source fun node =>
      { node with children := node.children.without target }) :=
    .modify g source _ (fun _ => rfl) fun _ => rfl
  exact tail.trans (.modify _ target _ (fun _ => rfl) fun _ => rfl)

namespace Sound
variable {g h : Graph}

theorem unlink (sound : Sound g) (source target : Nat) : Sound (g.unlink source target) where
  links i j blob := by
    rw [memChildrenUnlink, memParentsUnlink, sound.links]
    exact and_congr_right fun _ => not_congr and_comm
  orderings := by simpa using sound.orderings
  after := by simpa using sound.after
  before := by simpa using sound.before
  tidy := sound.tidy.unlink source target
  noLoop i blob mem := sound.noLoop i blob (memParentsUnlink.mp mem).1
  noSelfOrdering := by simpa using sound.noSelfOrdering

theorem replaced (sound : Sound g) (members : List Nat) (op : Operator) :
    Sound (g.replaced members op) where
  toMirrored := sound.toMirrored.replaced members op
  tidy := ((sound.tidy.withInactive members).push op).attach g members op g.size
  noLoop i blob mem := by
    rcases memParentsReplaced.mp mem with old | ⟨rfl, entering, _⟩ | ⟨new, leaving, _⟩
    · exact sound.noLoop i blob old
    · exact Nat.lt_irrefl _ (outsideInRange (memIncoming.mp entering).1)
    · have inside : i < g.size := outsideInRange (memOutgoing.mp leaving).1
      exact Nat.ne_of_lt inside new
  noSelfOrdering i mem := by
    rcases memRunsAfterReplaced.mp mem with old | ⟨rfl, earlier⟩ | ⟨rfl, later⟩
    · exact sound.noSelfOrdering i old
    · exact Nat.lt_irrefl _ (outsideInRange (memEarlier.mp earlier).1)
    · exact Nat.lt_irrefl _ (outsideInRange (memLater.mp later).1)

theorem change (sound : Sound g) (change : Change g h) : Sound h := by
  cases change with
  | withInactive members =>
    exact ⟨sound.toMirrored.withInactive members, sound.tidy.withInactive members,
      by simpa using sound.noLoop, by simpa using sound.noSelfOrdering⟩
  | push op =>
    exact ⟨sound.toMirrored.push op, sound.tidy.push op, by simpa using sound.noLoop,
      by simpa using sound.noSelfOrdering⟩
  | @link source target blob tail head apart =>
    refine ⟨sound.toMirrored.link tail head blob, sound.tidy.link source target blob, ?_,
      by simpa using sound.noSelfOrdering⟩
    intro i label mem
    rcases memParentsLink.mp mem with old | ⟨rfl, _, same⟩
    · exact sound.noLoop i label old
    · exact apart (congrArg Link.node same).symm
  | unlink source target => exact sound.unlink source target
  | @precede first last tail head apart =>
    refine ⟨sound.toMirrored.precede tail head, sound.tidy.precede first last,
      by simpa using sound.noLoop, ?_⟩
    intro i mem
    rcases memRunsAfterPrecede.mp mem with old | ⟨rfl, _, same⟩
    · exact sound.noSelfOrdering i old
    · exact apart same.symm
  | replaced members op => exact sound.replaced members op
  | setOp i op =>
    have parents : ∀ j, (g.modify i ({ · with op })).parents j = g.parents j := fun j =>
      elimModify fun _ => rfl
    have children : ∀ j, (g.modify i ({ · with op })).children j = g.children j := fun j =>
      elimModify fun _ => rfl
    have after : ∀ j, (g.modify i ({ · with op })).runsAfter j = g.runsAfter j := fun j =>
      elimModify fun _ => rfl
    have before : ∀ j, (g.modify i ({ · with op })).runsBefore j = g.runsBefore j := fun j =>
      elimModify fun _ => rfl
    exact {
      links := by simpa [parents, children] using sound.links
      orderings := by simpa [after, before] using sound.orderings
      after := by simpa [after] using sound.after
      before := by simpa [before] using sound.before
      tidy := sound.tidy.modify i _ (fun _ sorted => sorted) fun _ sorted => sorted
      noLoop := by simpa [parents] using sound.noLoop
      noSelfOrdering := by simpa [after] using sound.noSelfOrdering }

end Sound

theorem soundOrigin (origin : Origin) : Sound origin.graph := by
  cases origin with
  | empty name =>
    have bare := fun i => outOfRange (g := (Origin.empty name).graph) (Nat.zero_le i)
    exact {
      links i j blob := by simp [(bare i).2.1, (bare j).1]
      orderings i j := by simp [(bare i).2.2.2, (bare j).2.2.1]
      after i := (bare i).2.2.1 ▸ List.Pairwise.nil
      before i := (bare i).2.2.2 ▸ List.Pairwise.nil
      tidy := ⟨fun i => (bare i).1 ▸ List.Pairwise.nil, fun i => (bare i).2.1 ▸ List.Pairwise.nil⟩
      noLoop i blob := by simp [(bare i).1]
      noSelfOrdering i := by simp [(bare i).2.2.1] }
  | ofNet net =>
    exact {
      toMirrored := mirroredOfNet net
      tidy := tidyOfNet net
      noLoop i blob mem := Nat.lt_irrefl i (memParentsOfNet.mp mem).2.1
      noSelfOrdering i mem := by
        obtain ⟨blob, _, last | since⟩ := memRunsAfterOfNet.mp mem
        · exact Nat.lt_irrefl i last.1
        · exact Nat.lt_irrefl i since.1 }

theorem soundEdited {g : Graph} (sound : Sound g) (edits : List Edit) :
    Sound (g.edited edits) := by
  induction edits generalizing g with
  | nil => exact sound
  | cons e rest ih =>
    refine ih ?_
    rcases editCases g e with same | change
    · exact same.symm ▸ sound
    · exact sound.change change

structure Outlives (g h : Graph) : Prop where
  size : g.size ≤ h.size
  inactive : ∀ i < g.size, g.isActive i = false → h.isActive i = false

namespace Outlives
variable {g h k : Graph}

theorem refl (g : Graph) : Outlives g g := ⟨Nat.le_refl _, fun _ _ inactive => inactive⟩

theorem trans (first : Outlives g h) (last : Outlives h k) : Outlives g k where
  size := Nat.le_trans first.size last.size
  inactive i inside inactive :=
    last.inactive i (Nat.lt_of_lt_of_le inside first.size) (first.inactive i inside inactive)

theorem ofSameNodes (same : SameNodes g h) : Outlives g h where
  size := Nat.le_of_eq same.size.symm
  inactive i _ inactive := (same.active i).trans inactive

theorem change (change : Change g h) : Outlives g h := by
  cases change with
  | withInactive members =>
    exact ⟨by simp, fun i _ inactive => by simp [isActiveWithInactive, inactive]⟩
  | push op =>
    refine ⟨by simp, fun i inside inactive => ?_⟩
    simp [isActivePush, inactive, Nat.ne_of_lt inside]
  | link blob _ _ _ => exact ofSameNodes (.link g _ _ blob)
  | unlink source target => exact ofSameNodes (.unlink g source target)
  | precede _ _ _ => exact ofSameNodes (.precede g _ _)
  | replaced members op =>
    refine ⟨by rw [sizeReplaced]; omega, fun i inside inactive => ?_⟩
    simp [isActiveReplaced, inactive, Nat.ne_of_lt inside]
  | setOp i op =>
    refine ⟨by simp, fun j _ inactive => ?_⟩
    have same : (g.modify i ({ · with op })).isActive j = g.isActive j := by
      rw [isActiveElim, isActiveElim]
      exact elimModify fun _ => rfl
    exact same.trans inactive

theorem edited (g : Graph) (edits : List Edit) : Outlives g (g.edited edits) := by
  induction edits generalizing g with
  | nil => exact refl g
  | cons e rest ih =>
    refine trans ?_ (ih (g.edit e))
    rcases editCases g e with same | changed
    · exact same.symm ▸ refl g
    · exact change changed

end Outlives

namespace Sound
variable {g : Graph} {i j : Nat}

theorem sameLabels (sound : Sound g) (i j : Nat) :
    (g.children i).labels j = (g.parents j).labels i := by
  have children := Links.sortedLabels (sound.tidy.children i) j
  have parents := Links.sortedLabels (sound.tidy.parents j) i
  refine children.ext parents fun blob => ?_
  rw [Links.memLabels, Links.memLabels]
  exact sound.links i j blob

theorem neighbourApart (sound : Sound g) {labels : List String}
    (entry : (j, labels) ∈ (g.children i).entries) :
    i < g.size ∧ j < g.size ∧ i ≠ j ∧ labels ≠ [] := by
  obtain ⟨rfl, some⟩ := Links.memEntries.mp entry
  obtain ⟨blob, mem⟩ := List.exists_mem_of_ne_nil _ some
  have edge := (sound.links i j blob).mp (Links.memLabels.mp mem)
  obtain ⟨tail, head⟩ := sound.linkInRange edge
  refine ⟨tail, head, fun same => ?_, some⟩
  subst same
  exact sound.noLoop i blob edge

theorem orderingApart (sound : Sound g) (ordering : j ∈ g.runsBefore i) :
    i < g.size ∧ j < g.size ∧ i ≠ j := by
  have after := (sound.orderings i j).mp ordering
  obtain ⟨tail, head⟩ := sound.orderingInRange after
  refine ⟨tail, head, fun same => ?_⟩
  subst same
  exact sound.noSelfOrdering i after

end Sound

theorem adjacencyKept (origin : Origin) (edits : List Edit) :
    let g := origin.graph.edited edits
    (∀ i j labels, (j, labels) ∈ (g.children i).entries ↔ (i, labels) ∈ (g.parents j).entries) ∧
    (∀ i j, j ∈ g.runsBefore i ↔ i ∈ g.runsAfter j) ∧
    (∀ i j labels, (j, labels) ∈ (g.children i).entries →
      i < g.size ∧ j < g.size ∧ i ≠ j ∧ labels ≠ []) ∧
    (∀ i j, j ∈ g.runsBefore i → i < g.size ∧ j < g.size ∧ i ≠ j) ∧
    (∀ more, g.size ≤ (g.edited more).size ∧
      ∀ i < g.size, g.isActive i = false → (g.edited more).isActive i = false) ∧
    ∀ members op, (substitute members op).run.run g =
      ((g.replaceSubgraph members op).map Prod.snd, g.edit (.replaceSubgraph members op)) := by
  intro g
  have sound : Sound g := soundEdited (soundOrigin origin) edits
  refine ⟨fun i j labels => ?_, sound.orderings, fun i j labels => sound.neighbourApart,
    fun i j => sound.orderingApart, fun more => ?_, substituteRun sound.toMirrored⟩
  · rw [Links.memEntries, Links.memEntries, sound.sameLabels i j]
  · have kept := Outlives.edited g more
    exact ⟨kept.size, kept.inactive⟩

end Graph

end OpNet
