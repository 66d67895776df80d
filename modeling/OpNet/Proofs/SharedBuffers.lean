import OpNet.Proofs.Sequence
import OpNet.Proofs.SoundAdjacency

/-!
The search over buffers that all its branches share. A branch puts a node on the growing match, goes
deeper, and takes the node off again, also when what lies deeper has failed; nothing bounds the
depth, and every index is checked where it is used. Main statement: on a graph with sound adjacency
the buffers come back from every branch as they were, no check ever fails, and the run comes to an
end, in what `findMatches` returns.
-/
namespace OpNet.Search.Shared

structure Buffers where
  taken : Marks
  grown : List Nat := []
  progress : Progress := {}
  found : List Match := []

/-- The outcome is `none` for a run without an end. -/
abbrev Run := StateT Buffers Option

abbrev Step := ExceptT Error Run

section
variable (g : Graph) (rule : Rule) (config : Config)

def push (i : Nat) : Run Unit := modify fun b => { b with grown := b.grown ++ [i] }

def pop : Run Unit := modify fun b => { b with grown := b.grown.dropLast }

def isGrown (i : Nat) : Run Bool := return (← get).grown.contains i

def isTaken (i : Nat) : Step Bool := do
  match (← get).taken[i]? with
  | some mark => return mark
  | none => throw (Cause.nodeNotFound i : Error)

def take (i : Nat) : Step Unit := do
  let b ← get
  if i < b.taken.size then set { b with taken := b.taken.setIfInBounds i true }
  else throw (Cause.nodeNotFound i : Error)

def member (k : Nat) : Step Node := do
  match (← get).grown[k]? with
  | some i => g.node i
  | none => throw (Cause.nodeNotFound k : Error)

def ensureSize (size : Nat) : Step Unit := do
  let b ← get
  if b.grown.length = size then return
  else throw (Cause.sizeChanged size b.grown.length : Error)

def offer (i : Nat) : Run Bool := do
  let b ← get
  let (yes, p) := Search.offer g rule b.grown i b.progress
  set { b with progress := p }
  return yes

def count : Step Unit := do
  let b ← get
  let p ← Search.count rule config b.progress
  set { b with progress := p }

def keep : Run Unit := modify fun b => { b with progress := Search.keep g rule b.grown b.progress }

end

structure Task where
  g : Graph
  rule : Rule
  config : Config

namespace Task

mutual

def expand (task : Task) : Step Unit := do
  count task.rule task.config
  keep task.g task.rule
  task |>.explore (← get).grown.length
partial_fixpoint

def explore (task : Task) (size : Nat) : Step Unit := do
  match task.config.strategyFor task.rule with
  | .connected => (List.range size).forM fun k => task |>.around size k
  | .ordered =>
    let first := ((← get).grown.getLast?.map (· + 1)).getD 0
    (List.range' first (task.g.size - first)).forM fun i => do
      if !(← isTaken i) then
        task |>.tryNode i
        ensureSize size
  | .unrestricted =>
    (List.range task.g.size).forM fun i => do
      if !(← isGrown i) && !(← isTaken i) then
        task |>.tryNode i
        ensureSize size
partial_fixpoint

def around (task : Task) (size k : Nat) : Step Unit := do
  let node ← member task.g k
  node.children.nodes.forM fun i => task |>.tryNeighbour i
  ensureSize size
  node.parents.nodes.forM fun i => task |>.tryNeighbour i
  ensureSize size
partial_fixpoint

def tryNeighbour (task : Task) (i : Nat) : Step Unit := do
  if (← isGrown i) || (← isTaken i) then return
  else task |>.tryNode i
partial_fixpoint

def tryNode (task : Task) (i : Nat) : Step Unit := show Run (Except Error Unit) from do
  if ← offer task.g task.rule i then
    push i
    let result ← task |>.expand.run
    -- The node comes off before a failure is passed on.
    pop
    return result
  else return .ok ()
partial_fixpoint

end

end Task

section
variable (g : Graph) (rule : Rule) (config : Config)

def seek (start : Nat) : Step Unit := do
  modify fun b => { b with progress := { b.progress with best := [] } }
  if !(← isTaken start) then Task.tryNode ⟨g, rule, config⟩ start

def record : Step Unit := do
  let best := (← get).progress.best
  if !best.isEmpty then
    best.forM take
    modify fun b => { b with found := b.found ++ [⟨best⟩] }

def Buffers.result (b : Buffers) : Found := { found := b.found, stats := b.progress.stats }

def findMatches : Option (Except Error Found) :=
  let search : Step Unit := (List.range g.size).forM fun start => do
    seek g rule config start
    record
  (search.run.run { taken := .ofList g.size [] }).map fun (outcome, b) =>
    outcome.map fun _ => b.result

end

/-! What a step does to the buffers. -/

section
variable {g : Graph} {rule : Rule} {config : Config} {b after : Buffers} {α β : Type}

def Reads (x : Step α) (b : Buffers) (a : α) : Prop := x.run.run b = some (.ok a, b)

def Performs (x : Step Unit) (b : Buffers) : Except Error Progress → Prop
  | .ok p => x.run.run b = some (.ok (), { b with progress := p })
  | .error e => ∃ p, x.run.run b = some (.error e, { b with progress := p })

theorem Reads.next {x : Step α} {f : α → Step β} {a : α} {c : β} (first : Reads x b a)
    (next : Reads (f a) b c) : Reads (x >>= f) b c :=
  (runOk first).trans next

namespace Performs

theorem nothing : Performs (pure ()) b (.ok b.progress) := rfl

theorem via {x y : Step Unit} {p : Progress} {outcome : Except Error Progress}
    (first : x.run.run b = y.run.run { b with progress := p })
    (rest : Performs y { b with progress := p } outcome) : Performs x b outcome := by
  cases outcome with
  | ok q => exact first.trans rest
  | error e =>
    obtain ⟨q, failed⟩ := rest
    exact ⟨q, first.trans failed⟩

theorem next {x y : Step Unit} {p : Progress} {outcome : Except Error Progress}
    (first : Performs x b (.ok p)) (rest : Performs y { b with progress := p } outcome) :
    Performs (x >>= fun _ => y) b outcome :=
  via (runOk first) rest

theorem bind {x y : Step Unit} {one : Except Error Progress}
    {two : Progress → Except Error Progress} (first : Performs x b one)
    (next : ∀ p, Performs y { b with progress := p } (two p)) :
    Performs (x >>= fun _ => y) b (one >>= two) := by
  cases one with
  | error e =>
    obtain ⟨p, failed⟩ := first
    exact ⟨p, runError failed⟩
  | ok p => exact Performs.next first (next p)

theorem forM {step : α → Step Unit} {outcome : Progress → α → Except Error Progress}
    (xs : List α) (b : Buffers)
    (each : ∀ x ∈ xs, ∀ p, Performs (step x) { b with progress := p } (outcome p x)) :
    Performs (xs.forM step) b (xs.foldlM outcome b.progress) := by
  induction xs generalizing b with
  | nil => exact nothing
  | cons x rest ih =>
    rw [List.foldlM_cons]
    refine bind (each x (by simp) b.progress) fun p => ?_
    exact ih { b with progress := p } fun y mem => each y (by simp [mem])

theorem branch {x : Step Unit} {outcome : Except Error Progress} {wanted : Bool}
    (first : wanted = true → Performs x b outcome) :
    Performs (if wanted then x else pure ()) b (if wanted then outcome else pure b.progress) := by
  cases wanted with
  | true => exact first rfl
  | false => exact nothing

end Performs

theorem Reads.bind {x : Step α} {f : α → Step Unit} {a : α} {outcome : Except Error Progress}
    (first : Reads x b a) (rest : Performs (f a) b outcome) : Performs (x >>= f) b outcome :=
  Performs.via (p := b.progress) (runOk first) rest

theorem ensureSizeReads : Reads (ensureSize b.grown.length) b () := by
  refine Reads.next (a := b) rfl ?_
  rw [if_pos rfl]
  rfl

theorem isGrownReads (i : Nat) : Reads (isGrown i : Step Bool) b (b.grown.contains i) := rfl

theorem isTakenReads {i : Nat} (inside : i < b.taken.size) :
    Reads (isTaken i) b (b.taken.has i) := by
  have marked : b.taken[i]? = some (b.taken.has i) := by simp [Marks.has, inside]
  refine Reads.next (a := b) rfl ?_
  rw [marked]
  rfl

theorem memberReads {k i : Nat} {node : Node} (here : b.grown[k]? = some i)
    (found : g.node? i = some node) : Reads (member g k) b node := by
  have known : g.node i = .ok node := by simp [Graph.node, found]
  refine Reads.next (a := b) rfl ?_
  rw [here]
  show Reads (liftM (g.node i)) b node
  rw [known]
  rfl

theorem countPerforms : Performs (count rule config) b (Search.count rule config b.progress) := by
  refine Reads.bind (a := b) rfl ?_
  cases Search.count rule config b.progress with
  | ok p => rfl
  | error e => exact ⟨b.progress, rfl⟩

theorem keepPerforms :
    Performs (keep g rule : Step Unit) b (.ok (Search.keep g rule b.grown b.progress)) := rfl

theorem tryNodeRun (g : Graph) (rule : Rule) (config : Config) (b : Buffers) (i : Nat) :
    (Task.tryNode ⟨g, rule, config⟩ i).run.run b =
      (if rule.accept g b.grown i then (do
        push i
        let result ← (Task.expand ⟨g, rule, config⟩).run
        pop
        return result : Run (Except Error Unit))
      else return .ok ()).run
        { b with progress := (Search.offer g rule b.grown i b.progress).2 } := by
  rw [Task.tryNode]
  rfl

theorem tryNodePerforms {i : Nat} {deep : Except Error Progress}
    (deeper : rule.accept g b.grown i = true → Performs (Task.expand ⟨g, rule, config⟩)
      { b with grown := b.grown ++ [i], progress := (Search.offer g rule b.grown i b.progress).2 }
      deep) :
    Performs (Task.tryNode ⟨g, rule, config⟩ i) b
      (if rule.accept g b.grown i then deep
      else .ok (Search.offer g rule b.grown i b.progress).2) := by
  have run := tryNodeRun g rule config b i
  split
  · rename_i accepted
    rw [if_pos accepted] at run
    have deeper := deeper accepted
    cases deep with
    | ok p =>
      refine run.trans ?_
      rw [Performs] at deeper
      simp [push, pop, deeper]
    | error e =>
      obtain ⟨p, failed⟩ := deeper
      refine ⟨p, run.trans ?_⟩
      simp [push, pop, failed]
  · rename_i refused
    rw [if_neg refused] at run
    exact run

theorem Performs.restored {x : Step Unit} {outcome : Except Error Progress}
    (first : Performs x b outcome) :
    Performs (x >>= fun _ => ensureSize b.grown.length) b outcome := by
  have both : Performs (x >>= fun _ => ensureSize b.grown.length) b (outcome >>= .ok) :=
    first.bind fun p => ensureSizeReads (b := { b with progress := p })
  cases outcome with
  | ok p => exact both
  | error e => exact both

theorem foldlMFlatMap {σ ε : Type} {step : σ → β → Except ε σ} {parts : α → List β} (xs : List α)
    (s : σ) : (xs.flatMap parts).foldlM step s = xs.foldlM (fun s x => (parts x).foldlM step s) s := by
  induction xs generalizing s with
  | nil => rfl
  | cons x rest ih =>
    rw [List.flatMap_cons, List.foldlM_append, List.foldlM_cons]
    exact bind_congr ih

theorem flatMapMembers (grown : List Nat) (parts : Nat → List Nat) :
    grown.flatMap parts = (List.range grown.length).flatMap fun k => parts (grown.getD k 0) := by
  have listed : (List.range grown.length).map (fun k => grown.getD k 0) = grown := by
    refine List.ext_getElem (by simp) fun k left right => ?_
    simp [right]
  calc grown.flatMap parts
      = ((List.range grown.length).map fun k => grown.getD k 0).flatMap parts := by rw [listed]
    _ = _ := List.flatMap_map _ _ _

theorem neighbourInside (mirrored : g.Mirrored) {i m : Nat}
    (adjacent : i ∈ (g.children m).nodes ++ (g.parents m).nodes) : i < g.size := by
  rcases List.mem_append.mp adjacent with child | parent
  · obtain ⟨blob, edge⟩ := Links.memNodes.mp child
    exact (mirrored.linkInRange ((mirrored.links m i blob).mp edge)).2
  · obtain ⟨blob, edge⟩ := Links.memNodes.mp parent
    exact (mirrored.linkInRange edge).1

section
variable {outcome : Progress → Nat → Except Error Progress}

theorem tryNeighbourPerforms {i : Nat} (whole : b.taken.size = g.size) (node : i < g.size)
    (fresh : (!b.grown.contains i && !b.taken.has i) = true →
      Performs (Task.tryNode ⟨g, rule, config⟩ i) b (outcome b.progress i)) :
    Performs (Task.tryNeighbour ⟨g, rule, config⟩ i) b
      (if !b.grown.contains i && !b.taken.has i && i < g.size then outcome b.progress i
      else pure b.progress) := by
  rw [Task.tryNeighbour]
  refine (isGrownReads i).bind ((isTakenReads (whole ▸ node)).bind ?_)
  cases grown : b.grown.contains i with
  | true => exact Performs.nothing
  | false =>
    cases taken : b.taken.has i with
    | true => exact Performs.nothing
    | false => simpa [node] using fresh (by simp only [grown, taken]; rfl)

theorem aroundPerforms {k m : Nat} (here : b.grown[k]? = some m) (inside : m < g.size)
    (each : ∀ i ∈ (g.children m).nodes ++ (g.parents m).nodes, ∀ p,
      Performs (Task.tryNeighbour ⟨g, rule, config⟩ i) { b with progress := p } (outcome p i)) :
    Performs (Task.around ⟨g, rule, config⟩ b.grown.length k) b
      (((g.children m).nodes ++ (g.parents m).nodes).foldlM outcome b.progress) := by
  obtain ⟨node, found⟩ := Graph.someNodeIff.mpr inside
  have children : g.children m = node.children := by simp [Graph.children, found]
  have parents : g.parents m = node.parents := by simp [Graph.parents, found]
  rw [Task.around, List.foldlM_append]
  refine (memberReads here found).bind ?_
  rw [← children, ← parents]
  refine Performs.bind (Performs.forM _ b fun i mem => each i (List.mem_append_left _ mem))
    fun p => ?_
  refine Reads.bind (ensureSizeReads (b := { b with progress := p })) ?_
  refine Performs.restored (b := { b with progress := p }) ?_
  exact Performs.forM _ { b with progress := p } fun i mem => each i (List.mem_append_right _ mem)

theorem explorePerforms (mirrored : g.Mirrored) (whole : b.taken.size = g.size)
    (inside : ∀ i ∈ b.grown, i < g.size)
    (each : ∀ i ∈ candidates g b.taken b.grown (config.strategyFor rule), ∀ p,
      Performs (Task.tryNode ⟨g, rule, config⟩ i) { b with progress := p } (outcome p i)) :
    Performs (Task.explore ⟨g, rule, config⟩ b.grown.length) b
      ((candidates g b.taken b.grown (config.strategyFor rule)).foldlM outcome b.progress) := by
  rw [Task.explore]
  dsimp only
  cases strategy : config.strategyFor rule with
  | connected =>
    rw [strategy] at each
    simp only [candidates] at each ⊢
    rw [List.foldlM_filter, flatMapMembers, foldlMFlatMap]
    refine Performs.forM _ b fun k mem p => ?_
    have bound : k < b.grown.length := List.mem_range.mp mem
    have here : b.grown[k]? = some (b.grown.getD k 0) := by simp [bound]
    generalize b.grown.getD k 0 = m at here
    have grown : m ∈ b.grown := List.mem_of_getElem? here
    refine aroundPerforms (b := { b with progress := p }) here (inside m grown)
      fun i adjacent q => ?_
    have node := neighbourInside mirrored adjacent
    refine tryNeighbourPerforms (b := { b with progress := q }) whole node fun fresh => ?_
    refine each i (List.mem_filter.mpr ⟨List.mem_flatMap.mpr ⟨m, grown, adjacent⟩, ?_⟩) q
    simpa [node] using fresh
  | ordered =>
    rw [strategy] at each
    simp only [candidates] at each ⊢
    rw [List.foldlM_filter]
    refine Reads.bind (a := b) rfl (Performs.forM _ b fun i mem p => ?_)
    have node : i < b.taken.size := by
      have bound := List.mem_range'_1.mp mem
      omega
    refine (isTakenReads (b := { b with progress := p }) node).bind
      (Performs.branch (b := { b with progress := p }) fun free => ?_)
    exact (each i (List.mem_filter.mpr ⟨mem, free⟩) p).restored
  | unrestricted =>
    rw [strategy] at each
    simp only [candidates] at each ⊢
    rw [List.foldlM_filter]
    refine Performs.forM _ b fun i mem p => ?_
    have node : i < b.taken.size := whole ▸ List.mem_range.mp mem
    refine Reads.bind (isGrownReads i) ((isTakenReads (b := { b with progress := p }) node).bind
      (Performs.branch (b := { b with progress := p }) fun free => ?_))
    exact (each i (List.mem_filter.mpr ⟨mem, free⟩) p).restored

theorem expandThrough (outcome : Progress → Nat → Except Error Progress) (mirrored : g.Mirrored)
    (whole : b.taken.size = g.size) (inside : ∀ i ∈ b.grown, i < g.size)
    (each : ∀ i ∈ candidates g b.taken b.grown (config.strategyFor rule), ∀ p,
      Performs (Task.tryNode ⟨g, rule, config⟩ i) { b with progress := p } (outcome p i)) :
    Performs (Task.expand ⟨g, rule, config⟩) b (Search.count rule config b.progress >>= fun c =>
      (candidates g b.taken b.grown (config.strategyFor rule)).foldlM outcome
        (Search.keep g rule b.grown c)) := by
  rw [Task.expand]
  refine countPerforms.bind fun c => ?_
  refine Performs.next (b := { b with progress := c }) keepPerforms ?_
  have explored : Performs (Task.explore ⟨g, rule, config⟩ b.grown.length)
      { b with progress := Search.keep g rule b.grown c }
      ((candidates g b.taken b.grown (config.strategyFor rule)).foldlM outcome
        (Search.keep g rule b.grown c)) :=
    explorePerforms (b := { b with progress := Search.keep g rule b.grown c }) mirrored whole
      inside each
  exact Reads.bind (show Reads get _ { b with progress := Search.keep g rule b.grown c } from rfl)
    explored

end

theorem expandPerforms {claimed : List Nat} {start room : Nat} (mirrored : g.Mirrored)
    (seq : Sequence g rule (config.strategyFor rule) claimed start b.grown)
    (marks : b.taken = .ofList g.size claimed) (enough : g.size ≤ room + b.grown.length) :
    Performs (Task.expand ⟨g, rule, config⟩) b
      (Search.expand g rule config b.taken room b.grown b.progress) := by
  have whole : b.taken.size = g.size := by simp [marks, Marks.ofList]
  have inside : ∀ i ∈ b.grown, i < g.size := fun i mem => (seq.free i mem).1
  -- The pure search stops without room, the other one goes on; but then nothing is offered.
  induction room generalizing b with
  | zero =>
    have none := seq.full (by omega)
    rw [← marks] at none
    have through : Performs (Task.expand ⟨g, rule, config⟩) b (Search.count rule config b.progress >>=
        fun c => (candidates g b.taken b.grown (config.strategyFor rule)).foldlM
          (fun p _ => .ok p) (Search.keep g rule b.grown c)) :=
      expandThrough _ mirrored whole inside (by simp [none])
    rw [none] at through
    exact through
  | succ room ih =>
    refine expandThrough _ mirrored whole inside fun i offered p => ?_
    refine tryNodePerforms (b := { b with progress := p }) fun accepted => ?_
    rw [marks] at offered
    have next := seq.grow offered accepted
    exact ih next marks (by simp; omega) whole fun j mem => (next.free j mem).1

/-! From one start to the next the match is empty, and all that has been found is taken. -/

structure Between (g : Graph) (b : Buffers) : Prop where
  empty : b.grown = []
  taken : b.taken = b.result.taken g.size

theorem fromStartOpen (g : Graph) (rule : Rule) (config : Config) (taken : Marks) (start : Nat)
    (stats : Stats) :
    fromStart g rule config taken start stats =
      if !taken.has start then
        if rule.accept g [] start then
          Search.expand g rule config taken (g.size - 1) [start]
            (Search.offer g rule [] start { stats }).2
        else .ok (Search.offer g rule [] start { stats }).2
      else pure { stats } := by
  unfold fromStart
  cases taken.has start with
  | true => rfl
  | false => rfl

theorem seekPerforms {start : Nat} (mirrored : g.Mirrored) (between : Between g b)
    (node : start < g.size) :
    Performs (seek g rule config start) b
      (fromStart g rule config b.taken start b.progress.stats) := by
  obtain ⟨taken, grown, ⟨best, stats⟩, found⟩ := b
  have empty : grown = [] := between.empty
  have marks : taken = .ofList g.size (found.flatMap Match.nodes) := between.taken
  subst empty
  have marked : start < taken.size := by simp [marks, Marks.ofList, node]
  rw [fromStartOpen]
  refine Performs.next (p := { stats }) rfl ?_
  refine Reads.bind (isTakenReads (b := ⟨taken, [], { stats }, found⟩) marked) ?_
  refine Performs.branch (b := ⟨taken, [], { stats }, found⟩) fun free => ?_
  refine tryNodePerforms (b := ⟨taken, [], { stats }, found⟩) fun accepted => ?_
  have unclaimed : start ∉ found.flatMap Match.nodes := by
    refine (freeIff node).mp ?_
    simpa [marks] using free
  exact expandPerforms (b := ⟨taken, [start], _, found⟩) mirrored (.one node unclaimed accepted)
    marks (by simp; omega)

theorem takeAll (nodes : List Nat) (b : Buffers) (inside : ∀ i ∈ nodes, i < b.taken.size) :
    (nodes.forM take).run.run b = some (.ok (), { b with taken := b.taken.add nodes }) := by
  induction nodes generalizing b with
  | nil => rfl
  | cons i rest ih =>
    have one : (take i).run.run b =
        some (.ok (), { b with taken := b.taken.setIfInBounds i true }) := by
      refine (runOk (a := b) rfl).trans ?_
      rw [if_pos (inside i (by simp))]
      rfl
    have others : ∀ j ∈ rest, j < (b.taken.setIfInBounds i true).size := by
      intro j mem
      rw [Array.size_setIfInBounds]
      exact inside j (by simp [mem])
    exact (runOk one).trans (ih { b with taken := b.taken.setIfInBounds i true } others)

theorem recordRun (inside : ∀ i ∈ b.progress.best, i < b.taken.size) :
    record.run.run b = some (.ok (), { b with
      taken := b.taken.add b.progress.best
      found := if b.progress.best.isEmpty then b.found else b.found ++ [⟨b.progress.best⟩] }) := by
  refine (runOk (a := b) rfl).trans ?_
  cases best : b.progress.best with
  | nil => rfl
  | cons i rest =>
    rw [best] at inside
    exact runOk (takeAll (i :: rest) b inside)

theorem takenAdd (f : Found) (p : Progress) (bound : Nat) :
    (f.add p).taken bound = (f.taken bound).add p.best := by
  unfold Found.add Found.taken
  cases p.best with
  | nil => rfl
  | cons i rest => simp [Marks.ofList, Marks.add, List.foldl_append]

def Ends (g : Graph) (x : Step Unit) (b : Buffers) : Except Error Found → Prop
  | .ok f => ∃ after, x.run.run b = some (.ok (), after) ∧ after.result = f ∧ Between g after
  | .error e => ∃ after, x.run.run b = some (.error e, after)

theorem Ends.bind {x y : Step Unit} {one : Except Error Found} {two : Found → Except Error Found}
    (first : Ends g x b one) (next : ∀ after, Between g after → Ends g y after (two after.result)) :
    Ends g (x >>= fun _ => y) b (one >>= two) := by
  cases one with
  | error e =>
    obtain ⟨after, failed⟩ := first
    exact ⟨after, runError failed⟩
  | ok f =>
    obtain ⟨after, run, rfl, between⟩ := first
    have rest := next after between
    show Ends g _ b (two after.result)
    cases outcome : two after.result with
    | ok f =>
      rw [outcome] at rest
      obtain ⟨last, later, ends⟩ := rest
      exact ⟨last, (runOk run).trans later, ends⟩
    | error e =>
      rw [outcome] at rest
      obtain ⟨last, failed⟩ := rest
      exact ⟨last, (runOk run).trans failed⟩

theorem startEnds {start : Nat} (mirrored : g.Mirrored) (between : Between g b)
    (node : start < g.size) :
    Ends g (seek g rule config start >>= fun _ => record) b (do
      return b.result.add
        (← fromStart g rule config (b.result.taken g.size) start b.result.stats)) := by
  have sought : Performs (seek g rule config start) b
      (fromStart g rule config (b.result.taken g.size) start b.result.stats) :=
    between.taken ▸ seekPerforms mirrored between node
  cases outcome : fromStart g rule config (b.result.taken g.size) start b.result.stats with
  | error e =>
    rw [outcome] at sought
    obtain ⟨p, failed⟩ := sought
    exact ⟨_, runError failed⟩
  | ok p =>
    rw [outcome] at sought
    have size : b.taken.size = g.size := by simp [between.taken, Found.taken, Marks.ofList]
    have inside : ∀ i ∈ p.best, i < b.taken.size := size ▸ (fromStartLegal node outcome).inside
    have recorded := recordRun (b := { b with progress := p }) inside
    refine ⟨_, (runOk sought).trans recorded, rfl, between.empty, ?_⟩
    show b.taken.add p.best = (b.result.add p).taken g.size
    rw [takenAdd, between.taken]

theorem startsEnd (mirrored : g.Mirrored) (starts : List Nat) (inside : ∀ i ∈ starts, i < g.size)
    (between : Between g b) :
    Ends g (starts.forM fun start => seek g rule config start >>= fun _ => record) b
      (starts.foldlM (fun f start => do
        return f.add (← fromStart g rule config (f.taken g.size) start f.stats)) b.result) := by
  induction starts generalizing b with
  | nil => exact ⟨b, rfl, rfl, between⟩
  | cons start rest ih =>
    rw [List.foldlM_cons]
    exact (startEnds mirrored between (inside start (by simp))).bind fun after between =>
      ih (fun i mem => inside i (by simp [mem])) between

theorem findMatchesEnds (mirrored : g.Mirrored) (rule : Rule) (config : Config) :
    findMatches g rule config = some (Search.findMatches g rule config) := by
  have between : Between g { taken := .ofList g.size [] } := ⟨rfl, rfl⟩
  have ends : Ends g _ _ (Search.findMatches g rule config) :=
    startsEnd mirrored (List.range g.size) (by simp) between
  unfold findMatches
  cases outcome : Search.findMatches g rule config with
  | ok f =>
    rw [outcome] at ends
    obtain ⟨after, run, rfl, _⟩ := ends
    show Option.map _ (StateT.run _ _) = _
    rw [run]
    rfl
  | error e =>
    rw [outcome] at ends
    obtain ⟨after, run⟩ := ends
    show Option.map _ (StateT.run _ _) = _
    rw [run]
    rfl

end

end OpNet.Search.Shared
