import OpNet.Proofs.Edits

/-!
Replacing a set of nodes step by step: the members' surroundings are gathered first, then the graph
is changed in place, and every step may fail. Main statement: the steps come to what the replacement
does at once, result and graph, and once the first change is made no step fails.
-/
namespace OpNet.Graph

/-- Steps on one graph; what was changed before a failure stays changed. -/
abbrev Editing := ExceptT Error (StateM Graph)

theorem nodeInside {g : Graph} {i : Nat} (inside : i < g.size) : ∃ node, g.node i = .ok node := by
  obtain ⟨node, found⟩ := someNodeIff.mpr inside
  exact ⟨node, by simp [Graph.node, found]⟩

theorem addEdgeOk {g : Graph} {source target : Nat} (tail : source < g.size)
    (head : target < g.size) (apart : source ≠ target) (blob : String) :
    g.addEdge source target blob = .ok (g.link source target blob) := by
  obtain ⟨a, foundA⟩ := nodeInside tail
  obtain ⟨b, foundB⟩ := nodeInside head
  simp [addEdge, foundA, foundB, apart, bind, Except.bind]

theorem addOrderingOk {g : Graph} {first last : Nat} (tail : first < g.size)
    (head : last < g.size) (apart : first ≠ last) :
    g.addOrdering first last = .ok (g.precede first last) := by
  obtain ⟨a, foundA⟩ := nodeInside tail
  obtain ⟨b, foundB⟩ := nodeInside head
  simp [addOrdering, foundA, foundB, apart, bind, Except.bind]

namespace Editing
variable {α β : Type} {g h : Graph}

def look (query : Graph → Except Error α) : Editing α := do
  match query (← get) with
  | .ok answer => return answer
  | .error e => throw e

def change (step : Graph → Except Error Graph) : Editing Unit := do
  set (← look step)

theorem bindRun {x : Editing α} {f : α → Editing β} {a : α} (first : x.run.run g = (.ok a, h)) :
    (x >>= f).run.run g = (f a).run.run h := runOk first

theorem lookRun (query : Graph → Except Error α) (g : Graph) :
    (look query).run.run g = (query g, g) := by
  have asked : (get : Editing Graph).run.run g = (.ok g, g) := rfl
  rw [look, bindRun asked]
  cases query g <;> rfl

theorem changeRun {step : Graph → Except Error Graph} (done : step g = .ok h) :
    (change step).run.run g = (.ok (), h) := by
  have looked : (look step).run.run g = (.ok h, g) := by rw [lookRun, done]
  rw [change, bindRun looked]
  rfl

theorem forMRun {good : Graph → Prop} {step : Graph → α → Graph} {body : α → Editing Unit}
    {xs : List α} (each : ∀ x ∈ xs, ∀ h, good h →
      (body x).run.run h = (.ok (), step h x) ∧ good (step h x)) (start : good g) :
    (xs.forM body).run.run g = (.ok (), xs.foldl step g) ∧ good (xs.foldl step g) := by
  induction xs generalizing g with
  | nil => exact ⟨rfl, start⟩
  | cons x rest ih =>
    obtain ⟨first, later⟩ := List.forall_mem_cons.mp each
    obtain ⟨run, kept⟩ := first g start
    obtain ⟨runRest, last⟩ := ih later kept
    exact ⟨(bindRun run).trans runRest, last⟩

end Editing

structure Surroundings where
  incoming : Links := []
  outgoing : Links := []
  earlier : List Nat := []
  later : List Nat := []

def Surroundings.around (seen : Surroundings) (outside : Nat → Bool) (node : Node) :
    Surroundings where
  incoming := seen.incoming ++ node.parents.filter fun link => outside link.node
  outgoing := seen.outgoing ++ node.children.filter fun link => outside link.node
  earlier := (node.runsAfter.filter outside).foldr Ascending.insert seen.earlier
  later := (node.runsBefore.filter outside).foldr Ascending.insert seen.later

def survey (g : Graph) (members : List Nat) : Except Error Surroundings :=
  members.foldlM (fun seen i => return seen.around (g.isOutside members) (← g.node i)) {}

open Editing in
def substitute (members : List Nat) (op : Operator) : Editing Nat := do
  let found ← look (·.survey members)
  change (·.deactivateAll members)
  let fresh ← look fun g => .ok g.size
  change fun g => .ok (g.push op)
  found.incoming.forM fun link => do
    if (← look (·.node fresh)).op.reads link.label then
      change (·.addEdge link.node fresh link.label)
  found.outgoing.forM fun link => do
    if (← look (·.node fresh)).op.writes link.label then
      change (·.addEdge fresh link.node link.label)
  found.earlier.forM fun first => change (·.addOrdering first fresh)
  found.later.forM fun last => change (·.addOrdering fresh last)
  return fresh

/-! Gathering the surroundings goes through the members one by one. -/

structure Surveyed (g : Graph) (outside : Nat → Bool) (seen : List Nat) (found : Surroundings) :
    Prop where
  incoming : found.incoming =
    seen.flatMap fun i => (g.parents i).filter fun link => outside link.node
  outgoing : found.outgoing =
    seen.flatMap fun i => (g.children i).filter fun link => outside link.node
  earlier : ∀ i, i ∈ found.earlier ↔ i ∈ seen.flatMap fun m => (g.runsAfter m).filter outside
  later : ∀ i, i ∈ found.later ↔ i ∈ seen.flatMap fun m => (g.runsBefore m).filter outside

theorem memInsertAll {xs set : List Nat} {i : Nat} :
    i ∈ xs.foldr Ascending.insert set ↔ i ∈ set ∨ i ∈ xs := by
  induction xs with
  | nil => simp
  | cons x rest ih =>
    rw [List.foldr_cons, Ascending.memInsert, ih, List.mem_cons, or_left_comm]

section
variable {g : Graph} {outside : Nat → Bool} {seen : List Nat} {found : Surroundings}

theorem Surveyed.step (surveyed : Surveyed g outside seen found) {i : Nat} {node : Node}
    (here : g.node i = .ok node) :
    Surveyed g outside (seen ++ [i]) (found.around outside node) := by
  have entry : g.node? i = some node := by
    unfold Graph.node at here
    split at here <;> cases here
    assumption
  constructor
  · simp [Surroundings.around, surveyed.incoming, parents, entry]
  · simp [Surroundings.around, surveyed.outgoing, children, entry]
  · intro j
    simp [Surroundings.around, memInsertAll, surveyed.earlier, runsAfter, entry]
  · intro j
    simp [Surroundings.around, memInsertAll, surveyed.later, runsBefore, entry]

theorem Surveyed.run (surveyed : Surveyed g outside seen found) {rest : List Nat}
    (inside : ∀ i ∈ rest, i < g.size) :
    ∃ last, rest.foldlM (fun seen i => return seen.around outside (← g.node i)) found = .ok last ∧
      Surveyed g outside (seen ++ rest) last := by
  induction rest generalizing seen found with
  | nil => exact ⟨found, rfl, by simpa using surveyed⟩
  | cons i rest ih =>
    obtain ⟨first, later⟩ := List.forall_mem_cons.mp inside
    obtain ⟨node, here⟩ := nodeInside first
    obtain ⟨last, run, done⟩ := ih (surveyed.step here) later
    refine ⟨last, ?_, by simpa using done⟩
    rw [List.foldlM_cons, here]
    exact run

end

theorem surveyOk {g : Graph} {members : List Nat} (inside : ∀ i ∈ members, i < g.size) :
    ∃ found, g.survey members = .ok found ∧ Surveyed g (g.isOutside members) members found := by
  have start : Surveyed g (g.isOutside members) [] {} := ⟨rfl, rfl, by simp, by simp⟩
  exact start.run inside

theorem nodeOutside {g : Graph} {i : Nat} (out : g.size ≤ i) :
    g.node i = .error (Cause.nodeNotFound i) := by
  simp [Graph.node, noNodeIff.mpr out]

theorem surveyError {g : Graph} {outside : Nat → Bool} {members : List Nat} {bad : Nat}
    (first : members.find? (fun i => g.size ≤ i) = some bad) (found : Surroundings) :
    members.foldlM (fun seen i => return seen.around outside (← g.node i)) found =
      (.error (Cause.nodeNotFound bad) : Except Error Surroundings) := by
  induction members generalizing found with
  | nil => cases first
  | cons i rest ih =>
    rw [List.foldlM_cons]
    by_cases out : g.size ≤ i
    · have same : i = bad := by simpa [List.find?_cons, out] using first
      rw [nodeOutside out, same]
      rfl
    · obtain ⟨node, here⟩ := nodeInside (Nat.lt_of_not_le out)
      rw [here]
      exact ih (by simpa [List.find?_cons, out] using first) _

theorem childrenPrecedeAll {α : Type} {first last : α → Nat} (g : Graph) (xs : List α) (i : Nat) :
    (xs.foldl (fun h x => h.precede (first x) (last x)) g).children i = g.children i := by
  induction xs generalizing g with
  | nil => rfl
  | cons x rest ih => rw [List.foldl_cons, ih, childrenPrecede]

theorem Mirrored.precedeCongr {g : Graph} (mirrored : Mirrored g) {first last : Nat → Nat}
    {xs ys : List Nat} (same : ∀ i, i ∈ xs ↔ i ∈ ys)
    (inside : ∀ i ∈ ys, first i < g.size ∧ last i < g.size) :
    xs.foldl (fun h i => h.precede (first i) (last i)) g =
      ys.foldl (fun h i => h.precede (first i) (last i)) g := by
  -- Orderings are kept as sets, so that the turn in which they are added does not show.
  have left : Mirrored (xs.foldl (fun h i => h.precede (first i) (last i)) g) :=
    mirrored.precedeAll fun i mem => inside i ((same i).mp mem)
  have right := mirrored.precedeAll inside
  have nodes := fun zs : List Nat =>
    SameNodes.foldl (fun h i => .precede h (first i) (last i)) zs g
  have after : ∀ i j, j ∈ (xs.foldl (fun h i => h.precede (first i) (last i)) g).runsAfter i ↔
      j ∈ (ys.foldl (fun h i => h.precede (first i) (last i)) g).runsAfter i := fun i j => by
    simp only [memRunsAfterPrecedeAll, same]
  have nodesSame := (nodes ys).symm.trans (nodes xs)
  refine nodesSame.ext (fun i => ?_) (fun i => ?_) (fun i => ?_) fun i => ?_
  · rw [parentsPrecedeAll, parentsPrecedeAll]
  · rw [childrenPrecedeAll, childrenPrecedeAll]
  · exact (left.after i).ext (right.after i) (after i)
  · refine (left.before i).ext (right.before i) fun j => ?_
    rw [left.orderings, right.orderings, after]

/-! The steps after the gathering. -/

structure Receives (op : Operator) (fresh : Nat) (g : Graph) : Prop extends Mirrored g where
  size : g.size = fresh + 1
  op : (g.node? fresh).map Node.op = some op

namespace Receives
variable {op : Operator} {fresh : Nat} {g h : Graph}

theorem look (receives : Receives op fresh g) :
    ∃ node, node.op = op ∧ (Editing.look (·.node fresh)).run.run g = (.ok node, g) := by
  obtain ⟨node, here, same⟩ := Option.map_eq_some_iff.mp receives.op
  exact ⟨node, same, by simp [Editing.lookRun, Graph.node, here]⟩

theorem addEdge (receives : Receives op fresh g) {source target : Nat} (tail : source < fresh + 1)
    (head : target < fresh + 1) (apart : source ≠ target) (blob : String) :
    (Editing.change (·.addEdge source target blob)).run.run g =
        (.ok (), g.link source target blob) ∧
      Receives op fresh (g.link source target blob) := by
  rw [← receives.size] at tail head
  have same := SameNodes.link g source target blob
  exact ⟨Editing.changeRun (addEdgeOk tail head apart blob), receives.link tail head blob,
    same.size.trans receives.size, (same.op fresh).trans receives.op⟩

theorem addOrdering (receives : Receives op fresh g) {first last : Nat} (tail : first < fresh + 1)
    (head : last < fresh + 1) (apart : first ≠ last) :
    (Editing.change (·.addOrdering first last)).run.run g = (.ok (), g.precede first last) ∧
      Receives op fresh (g.precede first last) := by
  rw [← receives.size] at tail head
  have same := SameNodes.precede g first last
  exact ⟨Editing.changeRun (addOrderingOk tail head apart), receives.precede tail head,
    same.size.trans receives.size, (same.op fresh).trans receives.op⟩

theorem addEdges (receives : Receives op fresh g) (links : Links) (source target : Link → Nat)
    (wanted : Operator → String → Bool)
    (apart : ∀ l ∈ links, source l < fresh + 1 ∧ target l < fresh + 1 ∧ source l ≠ target l) :
    let after := (links.filter fun l => wanted op l.label).foldl
      (fun h l => h.link (source l) (target l) l.label) g
    (links.forM fun l => do
      if wanted (← Editing.look (·.node fresh)).op l.label then
        Editing.change (·.addEdge (source l) (target l) l.label)).run.run g = (.ok (), after) ∧
      Receives op fresh after := by
  intro after
  simp only [after, List.foldl_filter]
  refine Editing.forMRun (fun l mem h receives => ?_) receives
  obtain ⟨node, rfl, looked⟩ := receives.look
  obtain ⟨tail, head, other⟩ := apart l mem
  rw [Editing.bindRun looked]
  split
  · exact receives.addEdge tail head other l.label
  · exact ⟨rfl, receives⟩

theorem addOrderings (receives : Receives op fresh g) (first last : Nat → Nat) {xs ys : List Nat}
    (same : ∀ i, i ∈ xs ↔ i ∈ ys)
    (apart : ∀ i ∈ ys, first i < fresh + 1 ∧ last i < fresh + 1 ∧ first i ≠ last i) :
    let after := ys.foldl (fun h i => h.precede (first i) (last i)) g
    (xs.forM fun i => Editing.change (·.addOrdering (first i) (last i))).run.run g =
        (.ok (), after) ∧
      Receives op fresh after := by
  intro after
  have inside : ∀ i ∈ ys, first i < g.size ∧ last i < g.size := fun i mem => by
    rw [receives.size]
    exact ⟨(apart i mem).1, (apart i mem).2.1⟩
  simp only [after, ← receives.precedeCongr same inside]
  refine Editing.forMRun (fun i mem h receives => ?_) receives
  obtain ⟨tail, head, other⟩ := apart i ((same i).mp mem)
  exact receives.addOrdering tail head other

end Receives

section
variable {g : Graph} {members : List Nat}

theorem substituteRefused {bad : Nat}
    (first : members.find? (fun i => g.size ≤ i) = some bad) (op : Operator) :
    (substitute members op).run.run g = (.error (Cause.nodeNotFound bad), g) := by
  have asked : (Editing.look (·.survey members)).run.run g =
      (.error (Cause.nodeNotFound bad), g) := by
    rw [Editing.lookRun, survey, surveyError first]
  exact runError asked

theorem substituteOk (mirrored : Mirrored g) (inside : ∀ i ∈ members, i < g.size)
    (op : Operator) :
    (substitute members op).run.run g = (.ok g.size, g.replaced members op) := by
  obtain ⟨found, surveyed, gathered⟩ := surveyOk inside
  have asked : (Editing.look (·.survey members)).run.run g = (.ok found, g) := by
    rw [Editing.lookRun, surveyed]
  have cleared : (Editing.change (·.deactivateAll members)).run.run g =
      (.ok (), g.withInactive members) := by
    refine Editing.changeRun ?_
    rw [deactivateAll, inRangeIff.mpr inside]
    rfl
  have counted : (Editing.look fun g => .ok g.size).run.run (g.withInactive members) =
      (.ok g.size, g.withInactive members) := by
    rw [Editing.lookRun, sizeWithInactive]
  have pushed : (Editing.change fun g => .ok (g.push op)).run.run (g.withInactive members) =
      (.ok (), (g.withInactive members).push op) := Editing.changeRun rfl
  have receives : Receives op g.size ((g.withInactive members).push op) :=
    ⟨(mirrored.withInactive members).push op, by simp, by simp [nodePush]⟩
  -- Neighbours outside are old nodes, so that every edge and ordering joins two different nodes.
  obtain ⟨fed, receives⟩ := receives.addEdges found.incoming Link.node (fun _ => g.size)
    Operator.reads fun l mem => by
      have old := outsideInRange (memIncoming.mp (gathered.incoming ▸ mem)).1
      omega
  obtain ⟨feeding, receives⟩ := receives.addEdges found.outgoing (fun _ => g.size) Link.node
    Operator.writes fun l mem => by
      have old := outsideInRange (memOutgoing.mp (gathered.outgoing ▸ mem)).1
      omega
  obtain ⟨after, receives⟩ := receives.addOrderings (fun i => i) (fun _ => g.size)
    gathered.earlier fun i mem => by
      have old := outsideInRange (memEarlier.mp mem).1
      omega
  obtain ⟨before, _⟩ := receives.addOrderings (fun _ => g.size) (fun i => i)
    gathered.later fun i mem => by
      have old := outsideInRange (memLater.mp mem).1
      omega
  rw [substitute, Editing.bindRun asked, Editing.bindRun cleared, Editing.bindRun counted,
    Editing.bindRun pushed, Editing.bindRun fed, Editing.bindRun feeding, Editing.bindRun after,
    Editing.bindRun before, gathered.incoming, gathered.outgoing]
  rfl

theorem firstOutside (g : Graph) (members : List Nat) :
    (∀ i ∈ members, i < g.size) ∨
      ∃ bad, members.find? (fun i => g.size ≤ i) = some bad ∧ bad ∈ members ∧ g.size ≤ bad := by
  cases found : members.find? fun i => g.size ≤ i with
  | none =>
    refine Or.inl fun i mem => ?_
    simpa using List.find?_eq_none.mp found i mem
  | some bad =>
    have out : g.size ≤ bad := by simpa using List.find?_some found
    exact Or.inr ⟨bad, rfl, List.mem_of_find?_eq_some found, out⟩

theorem replaceSubgraphRefused {bad : Nat}
    (first : members.find? (fun i => g.size ≤ i) = some bad) (op : Operator) :
    g.replaceSubgraph members op = .error (Cause.nodeNotFound bad) := by
  rw [replaceSubgraph, inRange, first]
  rfl

theorem substituteRun (mirrored : Mirrored g) (members : List Nat) (op : Operator) :
    (substitute members op).run.run g =
      ((g.replaceSubgraph members op).map Prod.snd, g.edit (.replaceSubgraph members op)) := by
  rcases firstOutside g members with inside | ⟨bad, first, _, _⟩
  · rw [substituteOk mirrored inside, edit, attempt, replaceSubgraphOk inside]
    rfl
  · rw [substituteRefused first, edit, attempt, replaceSubgraphRefused first]
    rfl

end

end OpNet.Graph
