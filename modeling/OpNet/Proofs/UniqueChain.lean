import OpNet.Proofs.FusionPass
import OpNet.Proofs.Matches

/-!
The matches of a fusion do not depend on the strategy. Every strategy offers the next member of a
chain, and from a given start there is at most one complete chain: a second one would have to leave
the first by an operator that reads an intermediate, and nothing outside a chain does. Main
statement: a pass finds the same matches and writes the same net under all strategies.
-/
namespace OpNet

namespace Search
variable {g : Graph} {rule : Rule} {strategy other : Strategy} {claimed nodes : List Nat}
  {start : Nat}

theorem Sequence.admissible (seq : Sequence g rule strategy claimed start nodes) :
    Admissible g rule strategy (.ofList g.size claimed) nodes := by
  induction seq with
  | one node free accepted => exact .start node ((freeIff node).mpr free) accepted
  | more before node offered new free accepted ih =>
    exact .grow ih (before.offeredIff.mpr ⟨node, offered, new, free⟩) accepted

theorem Improves.determined {seen more : List Nat → Prop} {a b : List Nat}
    (one : Improves g rule strategy seen [] a) (two : Improves g rule other more [] b)
    (same : ∀ s, seen s ↔ more s)
    (atMost : ∀ s t, seen s → rule.validate g s = true → seen t → rule.validate g t = true →
      s = t) : a = b := by
  rcases one.origin with rfl | ⟨seenA, validA, longA⟩
  · rcases two.origin with rfl | ⟨moreB, validB, longB⟩
    · rfl
    · have short := one.longest b ((same b).mpr moreB) validB
      exact absurd longB (Nat.not_lt.mpr short)
  · rcases two.origin with rfl | ⟨moreB, validB, _⟩
    · have short := two.longest a ((same a).mp seenA) validA
      exact absurd longA (Nat.not_lt.mpr short)
    · exact atMost a b seenA validA ((same b).mpr moreB) validB

theorem foldlMBeside {σ α ε : Type} {left right : σ → α → Except ε σ} {xs : List α}
    (related : σ → σ → Prop) {s t s' t' : σ} (runLeft : xs.foldlM left s = .ok s')
    (runRight : xs.foldlM right t = .ok t') (first : related s t)
    (each : ∀ x ∈ xs, ∀ s t s' t', related s t → left s x = .ok s' → right t x = .ok t' →
      related s' t') : related s' t' := by
  induction xs generalizing s t with
  | nil =>
    cases runLeft
    cases runRight
    exact first
  | cons x rest ih =>
    rw [List.foldlM_cons] at runLeft runRight
    obtain ⟨s, stepLeft, runLeft⟩ := bindOk.mp runLeft
    obtain ⟨t, stepRight, runRight⟩ := bindOk.mp runRight
    have next := each x (by simp) _ _ _ _ first stepLeft stepRight
    exact ih runLeft runRight next fun y mem => each y (by simp [mem])

end Search

namespace Fusion
open OpNet.Graph Search Net

section
variable {f : Fusion} {net : Net} {strategy other : Strategy} {claimed nodes chain : List Nat}
  {start last previous i : Nat}

theorem readsLast (accepted : f.accept (ofNet net) nodes i = true)
    (found : nodes.getLast? = some previous) :
    ∃ blob, net.Reads i blob ∧ net.LastWriter blob previous i := by
  obtain ⟨node, here, _, linked⟩ := acceptIff.mp accepted
  have parents : (ofNet net).parents i = node.parents := by simp [Graph.parents, here]
  obtain ⟨blob, edge⟩ := Links.memNodes.mp (linked previous found)
  exact ⟨blob, memParentsOfNet.mp (parents ▸ edge)⟩

theorem nextOffered (accepted : f.accept (ofNet net) nodes i = true) (some : nodes ≠ [])
    (strategy : Strategy) : strategy.Offers (ofNet net) nodes i := by
  obtain ⟨previous, found⟩ := existsLast some
  obtain ⟨blob, reads, writer⟩ := readsLast accepted found
  cases strategy with
  | connected =>
    have parent := memParentsOfNet.mpr ⟨reads, writer⟩
    have child := ((mirroredOfNet net).links previous i blob).mpr parent
    exact ⟨previous, List.mem_of_getLast? found, Or.inl (Links.memNodes.mpr ⟨blob, child⟩)⟩
  | ordered =>
    intro last same
    rw [found] at same
    cases same
    exact writer.1
  | unrestricted => trivial

theorem sequenceUnder (seq : Sequence (ofNet net) f.rule strategy claimed start nodes)
    (other : Strategy) : Sequence (ofNet net) f.rule other claimed start nodes := by
  induction seq with
  | one node free accepted => exact .one node free accepted
  | more before node _ new free accepted ih =>
    exact .more ih node (nextOffered accepted before.nonempty other) new free accepted

theorem staysInside (seq : Sequence (ofNet net) f.rule strategy claimed start nodes)
    (fusible : f.Fusible net chain) (begins : start ∈ chain) (found : chain.getLast? = some last) :
    ∀ i ∈ nodes, i ≤ last → i ∈ chain := by
  induction seq with
  | one => exact List.forall_mem_singleton.mpr fun _ => begins
  | @more grown i before _ _ _ _ accepted ih =>
    refine List.forall_mem_append.mpr ⟨ih, List.forall_mem_singleton.mpr fun bound => ?_⟩
    obtain ⟨previous, tail⟩ := existsLast before.nonempty
    obtain ⟨blob, reads, writer⟩ := readsLast accepted tail
    have less := writer.1
    have member := ih previous (List.mem_of_getLast? tail) (by omega)
    rcases innerOrLast found member with inner | same
    · exact fusible.inner previous inner i blob reads writer
    · omega

theorem sameChain (seq : Sequence (ofNet net) f.rule strategy claimed start nodes)
    (one : f.Fusible net nodes) (two : f.Fusible net chain) (begins : start ∈ chain)
    (foundOne : nodes.getLast? = some last) (foundTwo : chain.getLast? = some i)
    (bound : last ≤ i) : nodes = chain := by
  have inside : nodes ⊆ chain := fun k mem =>
    staysInside seq two begins foundTwo k mem
      (Nat.le_trans (atMostLast one.ascending foundOne mem) bound)
  have long : chain.length ≤ nodes.length := Nat.le_of_eq (two.length.trans one.length.symm)
  have perm : nodes.Perm chain := (seq.nodup.subperm inside).perm_of_length_le long
  exact perm.eq_of_pairwise (fun _ _ _ _ less more => absurd more (Nat.lt_asymm less))
    one.ascending two.ascending

theorem uniqueChain (one : Sequence (ofNet net) f.rule strategy claimed start nodes)
    (validOne : f.validate (ofNet net) nodes = true)
    (two : Sequence (ofNet net) f.rule other claimed start chain)
    (validTwo : f.validate (ofNet net) chain = true) : nodes = chain := by
  have fusibleOne := fusibleOfMatch one.admissible validOne
  have fusibleTwo := fusibleOfMatch two.admissible validTwo
  obtain ⟨lastOne, foundOne⟩ := existsLast one.nonempty
  obtain ⟨lastTwo, foundTwo⟩ := existsLast two.nonempty
  -- The chain that ends sooner has no room to leave the other.
  rcases Nat.le_total lastOne lastTwo with bound | bound
  · have begins := List.mem_of_mem_head? two.head
    exact sameChain one fusibleOne fusibleTwo begins foundOne foundTwo bound
  · have begins := List.mem_of_mem_head? one.head
    exact (sameChain two fusibleTwo fusibleOne begins foundTwo foundOne bound).symm

end

section
variable {f : Fusion} {net : Net} {config other : Config} {claimed : List Nat} {start : Nat}

theorem bestUnder {stats stats' : Stats} {p q : Progress} (inside : start < (ofNet net).size)
    (runP : fromStart (ofNet net) f.rule config (.ofList (ofNet net).size claimed) start stats =
      .ok p)
    (runQ : fromStart (ofNet net) f.rule other (.ofList (ofNet net).size claimed) start stats' =
      .ok q) : p.best = q.best := by
  have one := fromStartImproves inside runP
  have two := fromStartImproves inside runQ
  refine one.determined two (fun s => ?_) fun s t seqS validS seqT validT =>
    uniqueChain seqS validS seqT validT
  exact ⟨fun seq => sequenceUnder seq _, fun seq => sequenceUnder seq _⟩

theorem foundUnder {left right : Found}
    (runLeft : findMatches (ofNet net) f.rule config = .ok left)
    (runRight : findMatches (ofNet net) f.rule other = .ok right) : left.found = right.found := by
  refine foldlMBeside (fun s t => s.found = t.found) runLeft runRight rfl ?_
  intro start mem s t s' t' same stepLeft stepRight
  obtain ⟨p, runP, addP⟩ := bindOk.mp stepLeft
  obtain ⟨q, runQ, addQ⟩ := bindOk.mp stepRight
  cases addP
  cases addQ
  unfold Found.taken at runP runQ
  rw [← same] at runQ
  have best := bestUnder (List.mem_range.mp mem) runP runQ
  simp only [Found.add, same, best]

end

theorem strategyInvisible (f : Fusion) (net : Net) :
    ∃ found, ∀ strategy : Option Strategy,
      (Pass.mk f.rule { strategy }).findMatches (ofNet net) = .ok found ∧
      (Pass.mk f.rule { strategy }).applyTo net = (Pass.mk f.rule {}).applyTo net := by
  have searched : ∀ strategy : Option Strategy, ∃ result,
      findMatches (ofNet net) f.rule { strategy } = .ok result := fun strategy =>
    findMatchesOk rfl (ofNet net) f.rule
  obtain ⟨usual, first⟩ := searched none
  obtain ⟨g, standing, groups, fused⟩ := fusedOfLegal (findMatchesLegal first)
  refine ⟨usual.found, fun strategy => ?_⟩
  obtain ⟨result, run⟩ := searched strategy
  have same := foundUnder run first
  constructor
  · simp [Pass.findMatches, Pass.search, run, same, Except.mapError, Except.map]
  · rw [applyToFused run (same ▸ fused), applyToFused first fused]

end Fusion

end OpNet
