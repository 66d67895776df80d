import OpNet.Proofs.UniqueChain

/-!
Rules that only ever add a node above the last. Under such a rule the unrestricted search asks about
more nodes than the ordered one, but every further node is refused, and a refusal leaves nothing
behind but its own count. Main statement: the two searches find the same matches with as many
expansions, and run into a limit together.
-/
namespace OpNet

/-- To nodes that are already there, the rule adds none that is not above the last of them. -/
def Rule.Increasing (rule : Rule) (g : Graph) : Prop :=
  ∀ grown last i, grown.getLast? = some last → i ≤ last → rule.accept g grown i = false

namespace Search

inductive Alike {ε σ τ : Type} (related : σ → τ → Prop) : Except ε σ → Except ε τ → Prop
  | ok {s t} (same : related s t) : Alike related (.ok s) (.ok t)
  | error (e : ε) : Alike related (.error e) (.error e)

namespace Alike
variable {ε σ τ σ' τ' α : Type} {related : σ → τ → Prop} {others : σ' → τ' → Prop}

theorem bind {x : Except ε σ} {y : Except ε τ} {f : σ → Except ε σ'} {h : τ → Except ε τ'}
    (one : Alike related x y) (next : ∀ s t, related s t → Alike others (f s) (h t)) :
    Alike others (x >>= f) (y >>= h) := by
  cases one with
  | ok same => exact next _ _ same
  | error e => exact .error e

theorem foldlM {f : σ → α → Except ε σ} {h : τ → α → Except ε τ} {xs : List α} {s : σ} {t : τ}
    (first : related s t)
    (each : ∀ x ∈ xs, ∀ s t, related s t → Alike related (f s x) (h t x)) :
    Alike related (xs.foldlM f s) (xs.foldlM h t) := by
  induction xs generalizing s t with
  | nil => exact .ok first
  | cons x rest ih =>
    obtain ⟨here, later⟩ := List.forall_mem_cons.mp each
    simp only [List.foldlM_cons]
    exact (here s t first).bind fun s t next => ih next later

end Alike

structure Stats.Within (s t : Stats) : Prop where
  expansions : s.expansions = t.expansions
  accepted : s.accepted = t.accepted
  tried : s.tried ≤ t.tried

structure Progress.Within (p q : Progress) : Prop where
  best : p.best = q.best
  stats : p.stats.Within q.stats

structure Found.Within (f h : Found) : Prop where
  found : f.found = h.found
  stats : f.stats.Within h.stats

section
variable {g : Graph} {rule : Rule} {one two : Config} {taken : Marks} {grown : List Nat}
  {room last i : Nat} {p q : Progress}

theorem keepWithin (within : p.Within q) :
    (keep g rule grown p).Within (keep g rule grown q) := by
  unfold keep
  rw [within.best]
  split
  · exact ⟨rfl, within.stats⟩
  · exact within

theorem countWithin (limit : one.maxExpansions = two.maxExpansions) (within : p.Within q) :
    Alike Progress.Within (count rule one p) (count rule two q) := by
  have stats := within.stats
  have counted : Progress.Within
      { p with stats := { p.stats with expansions := q.stats.expansions + 1 } }
      { q with stats := { q.stats with expansions := q.stats.expansions + 1 } } :=
    ⟨within.best, rfl, stats.accepted, stats.tried⟩
  simp only [count, limit, stats.expansions]
  split
  · split
    · exact .error _
    · exact .ok counted
  · exact .ok counted

theorem offerWithin (within : p.Within q) :
    (offer g rule grown i p).2.Within (offer g rule grown i q).2 where
  best := within.best
  stats := {
    expansions := within.stats.expansions
    accepted := congrArg (· + _) within.stats.accepted
    tried := Nat.succ_le_succ within.stats.tried }

theorem refusedWithin (refused : rule.accept g grown i = false) (within : p.Within q) :
    p.Within (offer g rule grown i q).2 where
  best := within.best
  stats := {
    expansions := within.stats.expansions
    accepted := by simp [offer, refused, within.stats.accepted]
    tried := Nat.le_succ_of_le within.stats.tried }

theorem orderedCandidates (ascending : grown.Pairwise (· < ·))
    (found : grown.getLast? = some last) :
    candidates g taken grown .ordered =
      (candidates g taken grown .unrestricted).filter fun i => last < i := by
  have sorted : ∀ {xs : List Nat}, xs.Pairwise (· < ·) → Ascending.Sorted xs := fun less =>
    less.imp Nat.compare_eq_lt.mpr
  have left : Ascending.Sorted (candidates g taken grown .ordered) :=
    sorted (List.Pairwise.filter _ List.pairwise_lt_range')
  have right : Ascending.Sorted
      ((candidates g taken grown .unrestricted).filter fun i => last < i) :=
    sorted ((List.pairwise_lt_range.filter _).filter _)
  -- Two ascending lists of the same nodes: a node above the last is not a member.
  apply left.ext right
  intro i
  rw [List.mem_filter, memCandidates fun _ => ascending, memCandidates fun _ => ascending]
  simp only [Strategy.Offers, found, Option.some.injEq, forall_eq', true_and, decide_eq_true_eq]
  rw [and_right_comm, and_assoc]

section
variable (increasing : rule.Increasing g) (ordered : one.strategyFor rule = .ordered)
  (unrestricted : two.strategyFor rule = .unrestricted)
  (limit : one.maxExpansions = two.maxExpansions)
include increasing ordered unrestricted limit

theorem expandWithin (ascending : grown.Pairwise (· < ·)) (found : grown.getLast? = some last)
    (within : p.Within q) :
    Alike Progress.Within (expand g rule one taken room grown p)
      (expand g rule two taken room grown q) := by
  -- By the room that is left. What is accepted is above the last, so that `grown` stays ascending.
  induction room generalizing grown last p q with
  | zero =>
    exact (countWithin limit within).bind fun s t counted => .ok (keepWithin counted)
  | succ room ih =>
    refine (countWithin limit within).bind fun s t counted => ?_
    rw [ordered, unrestricted, orderedCandidates ascending found, List.foldlM_filter]
    refine Alike.foldlM (keepWithin counted) fun i _ s t here => ?_
    show Alike Progress.Within
      (if decide (last < i) = true then
        if rule.accept g grown i then
          expand g rule one taken room (grown ++ [i]) (offer g rule grown i s).2
        else .ok (offer g rule grown i s).2
      else .ok s)
      (if rule.accept g grown i then
        expand g rule two taken room (grown ++ [i]) (offer g rule grown i t).2
      else .ok (offer g rule grown i t).2)
    split
    · rename_i above
      have next := ascendingNext ascending found (by simpa using above)
      split
      · exact ih next List.getLast?_concat (offerWithin here)
      · exact .ok (offerWithin here)
    -- Only the unrestricted search asks about this node, and in vain.
    · rename_i below
      have refused := increasing grown last i found (Nat.le_of_not_lt (by simpa using below))
      rw [if_neg (by simp [refused])]
      exact .ok (refusedWithin refused here)

theorem fromStartWithin (taken : Marks) (start : Nat) {stats more : Stats}
    (within : stats.Within more) :
    Alike Progress.Within (fromStart g rule one taken start stats)
      (fromStart g rule two taken start more) := by
  have first : Progress.Within { stats := stats } { stats := more } := ⟨rfl, within⟩
  unfold fromStart
  split
  · exact .ok first
  · show Alike Progress.Within
      (if rule.accept g [] start then
        expand g rule one taken (g.size - 1) [start] (offer g rule [] start { stats }).2
      else .ok (offer g rule [] start { stats }).2)
      (if rule.accept g [] start then
        expand g rule two taken (g.size - 1) [start] (offer g rule [] start { stats := more }).2
      else .ok (offer g rule [] start { stats := more }).2)
    split
    · exact expandWithin increasing ordered unrestricted limit (List.pairwise_singleton _ _) rfl
        (offerWithin first)
    · exact .ok (offerWithin first)

theorem findMatchesWithin :
    Alike Found.Within (findMatches g rule one) (findMatches g rule two) := by
  have first : Found.Within {} {} := ⟨rfl, rfl, rfl, Nat.le_refl 0⟩
  refine Alike.foldlM first fun start _ f h here => ?_
  have taken : f.taken g.size = h.taken g.size := by simp only [Found.taken, here.found]
  rw [taken]
  have begun := fromStartWithin increasing ordered unrestricted limit (h.taken g.size) start
    here.stats
  exact begun.bind fun p q within =>
    .ok ⟨by simp only [Found.add, within.best, here.found], within.stats⟩

end

end

theorem orderedAsUnrestricted {g : Graph} {rule : Rule} (increasing : rule.Increasing g)
    (one two : Config) (ordered : one.strategyFor rule = .ordered)
    (unrestricted : two.strategyFor rule = .unrestricted)
    (limit : one.maxExpansions = two.maxExpansions) :
    (∃ f h, findMatches g rule one = .ok f ∧ findMatches g rule two = .ok h ∧
      f.found = h.found ∧ f.stats.expansions = h.stats.expansions ∧
      f.stats.accepted = h.stats.accepted ∧ f.stats.tried ≤ h.stats.tried) ∨
    ∃ e, findMatches g rule one = .error e ∧ findMatches g rule two = .error e := by
  have alike := findMatchesWithin increasing ordered unrestricted limit
  generalize findMatches g rule one = x at alike
  generalize findMatches g rule two = y at alike
  cases alike with
  | ok within =>
    exact Or.inl ⟨_, _, rfl, rfl, within.found, within.stats.expansions, within.stats.accepted,
      within.stats.tried⟩
  | error e => exact Or.inr ⟨e, rfl, rfl⟩

end Search

namespace Fusion
open OpNet.Graph Search

theorem increasing (f : Fusion) (net : Net) : f.rule.Increasing (ofNet net) := by
  intro grown last i found below
  apply Bool.eq_false_of_not_eq_true
  intro accepted
  obtain ⟨_, _, writer⟩ := readsLast accepted found
  exact Nat.not_lt.mpr below writer.1

theorem fusingOrderedAsUnrestricted :
    ∃ f h, findMatches (ofNet overwrittenInput) convRelu.rule { maxExpansions := some 2 } = .ok f ∧
      findMatches (ofNet overwrittenInput) convRelu.rule
        { strategy := some .unrestricted, maxExpansions := some 2 } = .ok h ∧
      f.found = h.found ∧ f.stats.expansions = h.stats.expansions ∧
      f.stats.accepted = h.stats.accepted ∧ f.stats.tried ≤ h.stats.tried := by
  have same := orderedAsUnrestricted (convRelu.increasing overwrittenInput)
    { maxExpansions := some 2 } { strategy := some .unrestricted, maxExpansions := some 2 }
    rfl rfl rfl
  rcases same with ok | ⟨e, failed, _⟩
  · exact ok
  · cases failed

end Fusion

end OpNet
