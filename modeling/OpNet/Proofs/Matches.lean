import OpNet.Proofs.Longest
import OpNet.Graph.OfNet
import OpNet.Rule.Table

/-!
The matches of a whole search. Main statements: from every start that no earlier match has claimed,
the search records a match exactly when there is a complete sequence, and then the first of the
longest; and whatever it returns is legal, without a node in two matches.
-/
namespace OpNet.Search

def Found.claimedBefore (f : Found) (start : Nat) : List Nat :=
  (f.found.filter fun m => m.nodes.head?.any (· < start)).flatMap Match.nodes

namespace Found
variable {f : Found} {p : Progress} {m : Match} {start : Nat}

theorem memClaimed {i : Nat} : i ∈ f.claimedBefore start ↔
    ∃ m ∈ f.found, (∃ first < start, m.nodes.head? = some first) ∧ i ∈ m.nodes := by
  simp only [claimedBefore, List.mem_flatMap, List.mem_filter, Option.any_eq_true,
    decide_eq_true_eq]
  constructor
  · intro ⟨m, ⟨mem, first, head, less⟩, member⟩
    exact ⟨m, mem, ⟨first, less, head⟩, member⟩
  · intro ⟨m, mem, ⟨first, less, head⟩, member⟩
    exact ⟨m, ⟨mem, first, head, less⟩, member⟩

theorem memAdd : m ∈ (f.add p).found ↔ m ∈ f.found ∨ (m.nodes = p.best ∧ p.best ≠ []) := by
  unfold add
  cases p.best with
  | nil => simp
  | cons i rest =>
    cases m
    simp

theorem claimedAdd (late : ∀ i ∈ p.best.head?, start ≤ i) :
    (f.add p).claimedBefore start = f.claimedBefore start := by
  unfold claimedBefore add
  cases best : p.best with
  | nil => rfl
  | cons i rest =>
    have notBefore : ¬ i < start := Nat.not_lt.mpr (late i (by simp [best]))
    simp [notBefore]

theorem claimedAll (begins : ∀ m ∈ f.found, ∃ i < start, m.nodes.head? = some i) :
    f.claimedBefore start = f.found.flatMap Match.nodes := by
  unfold claimedBefore
  rw [List.filter_eq_self.mpr]
  intro m mem
  obtain ⟨i, less, head⟩ := begins m mem
  simp [head, less]

end Found

section
variable {g : Graph} {rule : Rule} {config : Config} {strategy : Strategy}
  {claimed nodes best : List Nat} {start n : Nat} {stats : Stats} {p : Progress} {f : Found}
  {m : Match}

theorem fromStartImproves (inside : start < g.size)
    (run : fromStart g rule config (.ofList g.size claimed) start stats = .ok p) :
    Improves g rule (config.strategyFor rule)
      (Sequence g rule (config.strategyFor rule) claimed start) [] p.best := by
  have none : (∀ nodes, ¬ Sequence g rule (config.strategyFor rule) claimed start nodes) →
      Improves g rule (config.strategyFor rule)
        (Sequence g rule (config.strategyFor rule) claimed start) [] [] := fun no =>
    (Improves.none []).congr fun nodes => ⟨no nodes, False.elim⟩
  simp only [fromStart] at run
  split at run
  · rename_i marked
    cases run
    refine none fun nodes seq => ?_
    have free := (freeIff inside).mpr (seq.free start (List.mem_of_mem_head? seq.head)).2
    rw [marked] at free
    cases free
  · rename_i free
    have unclaimed : start ∉ claimed := (freeIff inside).mp (by simpa using free)
    have run : (if rule.accept g [] start then
        expand g rule config (.ofList g.size claimed) (g.size - 1) [start]
          (offer g rule [] start { stats }).2
      else .ok (offer g rule [] start { stats }).2) = .ok p := run
    split at run
    · rename_i accepted
      have all := expandImproves (.one inside unclaimed accepted) (by simp; omega) run
      refine all.congr fun nodes => ⟨fun seq => ⟨?_, seq⟩, And.right⟩
      obtain ⟨rest, same⟩ := List.head?_eq_some_iff.mp seq.head
      exact ⟨rest, same.symm⟩
    · rename_i refused
      cases run
      exact none fun nodes seq => refused seq.accepted

structure Settled (g : Graph) (rule : Rule) (strategy : Strategy) (f : Found) (start : Nat)
    (best : List Nat) : Prop where
  improves : Improves g rule strategy
    (Sequence g rule strategy (f.claimedBefore start) start) [] best
  recorded : ∀ m, (m ∈ f.found ∧ m.nodes.head? = some start) ↔ (m.nodes = best ∧ best ≠ [])

theorem Settled.complete {best : List Nat} (settled : Settled g rule strategy f start best)
    (some : best ≠ []) :
    Sequence g rule strategy (f.claimedBefore start) start best ∧ rule.validate g best = true :=
  have found := settled.improves.origin.resolve_left some
  ⟨found.1, found.2.1⟩

structure After (g : Graph) (rule : Rule) (strategy : Strategy) (n : Nat) (f : Found) : Prop where
  begins : ∀ m ∈ f.found, ∃ start < n, m.nodes.head? = some start
  rising : f.found.Pairwise fun a b => ∀ x ∈ a.nodes.head?, ∀ y ∈ b.nodes.head?, x < y
  settled : ∀ start < n, ∃ best, Settled g rule strategy f start best

theorem After.next (after : After g rule strategy n f) (inside : n < g.size)
    (improves : Improves g rule strategy
      (Sequence g rule strategy (f.found.flatMap Match.nodes) n) [] p.best) :
    After g rule strategy (n + 1) (f.add p) := by
  have head : p.best ≠ [] → p.best.head? = some n := fun some =>
    (improves.origin.resolve_left some).1.head
  have late : ∀ start ≤ n, ∀ i ∈ p.best.head?, start ≤ i := by
    intro start bound i first
    have some : p.best ≠ [] := fun none => by simp [none] at first
    rw [head some] at first
    exact Option.some.inj first ▸ bound
  -- The new match begins at `n`, so what earlier starts had to avoid is the same as before.
  have old : ∀ start ≤ n, (f.add p).claimedBefore start = f.claimedBefore start :=
    fun start bound => Found.claimedAdd (late start bound)
  exact {
    begins := by
      intro m mem
      rcases Found.memAdd.mp mem with known | ⟨same, some⟩
      · obtain ⟨start, less, first⟩ := after.begins m known
        exact ⟨start, Nat.lt_succ_of_lt less, first⟩
      · exact ⟨n, Nat.lt_succ_self n, same ▸ head some⟩
    rising := by
      unfold Found.add
      cases best : p.best with
      | nil => exact after.rising
      | cons i rest =>
        refine List.pairwise_append.mpr ⟨after.rising, List.pairwise_singleton _ _, ?_⟩
        intro m mem new last x first y begins
        obtain ⟨start, less, known⟩ := after.begins m mem
        rw [known] at first
        rw [List.mem_singleton.mp last, ← best, head (by simp [best])] at begins
        cases first
        cases begins
        exact less
    settled := by
      intro start bound
      rcases Nat.lt_succ_iff_lt_or_eq.mp bound with less | rfl
      · obtain ⟨best, settled⟩ := after.settled start less
        refine ⟨best, (old start (Nat.le_of_lt less)).symm ▸ settled.improves, fun m => ?_⟩
        rw [← settled.recorded m, Found.memAdd]
        refine and_congr_left fun first => or_iff_left fun h => ?_
        obtain ⟨same, some⟩ := h
        rw [same, head some] at first
        exact Nat.ne_of_gt less (Option.some.inj first)
      · refine ⟨p.best, ?_, fun m => ?_⟩
        · rw [old start (Nat.le_refl start), Found.claimedAll after.begins]
          exact improves
        · rw [Found.memAdd]
          constructor
          · intro h
            obtain ⟨known | new, first⟩ := h
            · obtain ⟨other, less, begins⟩ := after.begins m known
              rw [begins] at first
              exact absurd (Option.some.inj first) (Nat.ne_of_lt less)
            · exact new
          · intro new
            exact ⟨Or.inr new, new.1 ▸ head new.2⟩ }

theorem afterFindMatches (run : findMatches g rule config = .ok f) :
    After g rule (config.strategyFor rule) g.size f := by
  have all := foldlMThrough (fun done f => After g rule (config.strategyFor rule) done.length f)
    run ⟨by simp, List.Pairwise.nil, by simp⟩ ?_
  · rwa [List.length_range] at all
  · intro done start rest f next parts after step
    obtain ⟨p, here, step⟩ := bindOk.mp step
    cases step
    have at_ : (List.range g.size)[done.length]? = some start := by simp [parts]
    obtain ⟨inside, same⟩ := List.getElem?_eq_some_iff.mp at_
    rw [List.getElem_range] at same
    subst same
    rw [List.length_append, List.length_singleton]
    rw [List.length_range] at inside
    exact after.next inside (fromStartImproves inside here)

theorem sequenceOfFound (run : findMatches g rule config = .ok f) (mem : m ∈ f.found)
    (head : m.nodes.head? = some start) :
    Sequence g rule (config.strategyFor rule) (f.claimedBefore start) start m.nodes ∧
      rule.validate g m.nodes = true := by
  have after := afterFindMatches run
  obtain ⟨other, node, begins⟩ := after.begins m mem
  cases head.symm.trans begins
  obtain ⟨best, settled⟩ := after.settled start node
  obtain ⟨same, some⟩ := (settled.recorded m).mp ⟨mem, head⟩
  exact same ▸ settled.complete some

theorem recordedOfSequence (run : findMatches g rule config = .ok f)
    (seq : Sequence g rule (config.strategyFor rule) (f.claimedBefore start) start nodes)
    (valid : rule.validate g nodes = true) : ∃ m ∈ f.found, m.nodes.head? = some start := by
  have node := (seq.free start (List.mem_of_mem_head? seq.head)).1
  obtain ⟨best, settled⟩ := (afterFindMatches run).settled start node
  have long := settled.improves.longest nodes seq valid
  have some : best ≠ [] := fun empty => by
    rw [empty, List.length_nil, Nat.le_zero, List.length_eq_zero_iff] at long
    exact seq.nonempty long
  exact ⟨⟨best⟩, (settled.recorded ⟨best⟩).mpr ⟨rfl, some⟩⟩

theorem claimedOfComplete (run : findMatches g rule config = .ok f)
    (seq : Sequence g rule (config.strategyFor rule) [] start nodes)
    (valid : rule.validate g nodes = true) : ∃ i ∈ nodes, ∃ m ∈ f.found, i ∈ m.nodes := by
  by_contra none
  have free : ∀ i ∈ nodes, ∀ m ∈ f.found, i ∉ m.nodes := fun i mem m there here =>
    none ⟨i, mem, m, there, here⟩
  have unclaimed : ∀ i ∈ nodes, i ∉ f.claimedBefore start := fun i mem claimed => by
    obtain ⟨m, there, here⟩ := List.mem_flatMap.mp claimed
    exact free i mem m (List.mem_of_mem_filter there) here
  obtain ⟨m, there, head⟩ := recordedOfSequence run (seq.claim unclaimed) valid
  exact free start (List.mem_of_mem_head? seq.head) m there (List.mem_of_mem_head? head)

end

/-! For strategies that ask in index order, earlier is less. -/

theorem lessAfter {i j : Nat} (stem as bs : List Nat) (less : i < j) :
    stem ++ i :: as < stem ++ j :: bs := by
  induction stem with
  | nil => exact List.Lex.rel less
  | cons k stem ih => exact List.Lex.cons ih

theorem Earlier.less {g : Graph} {strategy : Strategy} {a b : List Nat}
    (indexed : strategy ≠ .connected) (earlier : Earlier g strategy a b) : a < b := by
  obtain ⟨stem, i, j, as, bs, rfl, rfl, sooner⟩ := earlier
  apply lessAfter
  cases strategy with
  | connected => exact absurd rfl indexed
  | ordered => exact sooner
  | unrestricted => exact sooner

theorem firstLongest {g : Graph} {rule : Rule} {config : Config} {f : Found}
    (run : findMatches g rule config = .ok f) {start : Nat} (node : start < g.size) :
    let strategy := config.strategyFor rule
    let Complete := fun nodes => Sequence g rule strategy (f.claimedBefore start) start nodes ∧
      rule.validate g nodes = true
    ((∃ m ∈ f.found, m.nodes.head? = some start) ↔ ∃ nodes, Complete nodes) ∧
    ∀ m ∈ f.found, m.nodes.head? = some start →
      Complete m.nodes ∧
      (∀ nodes, Complete nodes → nodes.length ≤ m.nodes.length) ∧
      ∀ nodes, Complete nodes → nodes.length = m.nodes.length → nodes ≠ m.nodes →
        Earlier g strategy m.nodes nodes ∧ (strategy ≠ .connected → m.nodes < nodes) := by
  intro strategy Complete
  obtain ⟨best, settled⟩ := (afterFindMatches run).settled start node
  have improves := settled.improves
  refine ⟨⟨fun h => ?_, fun h => ?_⟩, fun m mem head => ?_⟩
  · obtain ⟨m, mem, head⟩ := h
    obtain ⟨_, some⟩ := (settled.recorded m).mp ⟨mem, head⟩
    exact ⟨best, settled.complete some⟩
  · obtain ⟨nodes, seq, valid⟩ := h
    have some : best ≠ [] := fun none => by
      have short := improves.longest nodes seq valid
      rw [none, List.length_nil, Nat.le_zero, List.length_eq_zero_iff] at short
      exact seq.nonempty short
    obtain ⟨mem, head⟩ := (settled.recorded ⟨best⟩).mpr ⟨rfl, some⟩
    exact ⟨⟨best⟩, mem, head⟩
  · obtain ⟨same, some⟩ := (settled.recorded m).mp ⟨mem, head⟩
    rw [same]
    refine ⟨settled.complete some, fun nodes other => improves.longest nodes other.1 other.2, ?_⟩
    intro nodes other length apart
    have earlier := ((improves.first nodes other.1 other.2 length).resolve_left some).resolve_left
      apart
    exact ⟨earlier, fun indexed => earlier.less indexed⟩

def forked : Net where
  ops :=
    [{ kind := "Fill", outputs := ["A"] },
     { kind := "Relu", inputs := ["A"], outputs := ["B"] },
     { kind := "Copy", inputs := ["A"], outputs := ["C"] },
     { kind := "Relu", inputs := ["C"], outputs := ["D"] },
     { kind := "Relu", inputs := ["C"], outputs := ["E"] }]

def pairs : Table where
  name := "pairs"
  accept := { maxLength := some 2 }
  validate := { lengths := some [2] }

def forkedPairs : Found where
  found := [⟨[0, 1]⟩, ⟨[2, 3]⟩]
  stats := { expansions := 7, tried := 13, accepted := 7 }

theorem forkedFirstLongest :
    findMatches (Graph.ofNet forked) pairs.rule {} = .ok forkedPairs ∧
      2 < (Graph.ofNet forked).size ∧
      ∀ nodes, Sequence (Graph.ofNet forked) pairs.rule .connected [0, 1] 2 nodes →
        pairs.rule.validate (Graph.ofNet forked) nodes = true →
        nodes.length ≤ 2 ∧
          (nodes.length = 2 → nodes ≠ [2, 3] →
            Earlier (Graph.ofNet forked) .connected [2, 3] nodes) := by
  have run : findMatches (Graph.ofNet forked) pairs.rule {} = .ok forkedPairs := by
    decide +kernel
  have inside : 2 < (Graph.ofNet forked).size := by decide
  obtain ⟨_, longest, first⟩ := (firstLongest run inside).2 ⟨[2, 3]⟩ (by decide) rfl
  refine ⟨run, inside, fun nodes seq valid => ⟨longest nodes ⟨seq, valid⟩, ?_⟩⟩
  intro length other
  exact (first nodes ⟨seq, valid⟩ length other).1

/-! Everything that a search returns. -/

structure Legal (g : Graph) (rule : Rule) (strategy : Strategy) (nodes : List Nat) : Prop where
  nonempty : nodes ≠ []
  inside : ∀ i ∈ nodes, i < g.size
  nodup : nodes.Nodup
  accepted : ∀ k i, nodes[k]? = some i → rule.accept g (nodes.take k) i = true
  validated : rule.validate g nodes = true
  joined : strategy = .connected → ∀ k i, 0 < k → nodes[k]? = some i →
    ∃ j ∈ nodes.take k, i ∈ (g.children j).nodes ∨ i ∈ (g.parents j).nodes
  ascending : strategy = .ordered → nodes.Pairwise (· < ·)

theorem Sequence.legal {g : Graph} {rule : Rule} {strategy : Strategy} {claimed nodes : List Nat}
    {start : Nat} (seq : Sequence g rule strategy claimed start nodes)
    (valid : rule.validate g nodes = true) : Legal g rule strategy nodes where
  nonempty := seq.nonempty
  inside i mem := (seq.free i mem).1
  nodup := seq.nodup
  accepted _ _ here := (seq.stepAt here).1
  validated := valid
  joined connected k i later here := by
    subst connected
    exact (seq.stepAt here).2 later
  ascending ordered := by
    subst ordered
    exact seq.ascending

theorem matchesLegal {g : Graph} {rule : Rule} {config : Config} {f : Found}
    (run : findMatches g rule config = .ok f) :
    (∀ m ∈ f.found, Legal g rule (config.strategyFor rule) m.nodes) ∧
    (f.found.Pairwise fun a b => ∀ i ∈ a.nodes, i ∉ b.nodes) ∧
    f.found.Pairwise fun a b => ∀ x ∈ a.nodes.head?, ∀ y ∈ b.nodes.head?, x < y := by
  have after := afterFindMatches run
  refine ⟨fun m mem => ?_, (findMatchesLegal run).apart, after.rising⟩
  obtain ⟨start, node, head⟩ := after.begins m mem
  obtain ⟨best, settled⟩ := after.settled start node
  obtain ⟨same, some⟩ := (settled.recorded m).mp ⟨mem, head⟩
  obtain ⟨seq, valid⟩ := settled.complete some
  exact same ▸ seq.legal valid

theorem forkedLegal :
    findMatches (Graph.ofNet forked) pairs.rule { maxExpansions := some 7 } = .ok forkedPairs ∧
      Legal (Graph.ofNet forked) pairs.rule .connected [0, 1] ∧
      Legal (Graph.ofNet forked) pairs.rule .connected [2, 3] := by
  have run : findMatches (Graph.ofNet forked) pairs.rule { maxExpansions := some 7 } =
      .ok forkedPairs := by
    decide +kernel
  have legal := (matchesLegal run).1
  exact ⟨run, legal ⟨[0, 1]⟩ (by decide), legal ⟨[2, 3]⟩ (by decide)⟩

end OpNet.Search
