import OpNet.Proofs.Sequence

/-!
Which match a search settles on. From a start it takes the first of the longest complete sequences;
first is the one that, where two part, goes on with the node asked for sooner.
-/
namespace OpNet

def Strategy.Sooner (g : Graph) (grown : List Nat) (i j : Nat) : Strategy → Prop
  | connected =>
    let offered := grown.flatMap fun m => (g.children m).nodes ++ (g.parents m).nodes
    offered.idxOf i < offered.idxOf j
  | ordered | unrestricted => i < j

namespace Search

/-- Where the two part, `a` goes on with the node asked for sooner. -/
def Earlier (g : Graph) (strategy : Strategy) (a b : List Nat) : Prop :=
  ∃ stem i j as bs, a = stem ++ i :: as ∧ b = stem ++ j :: bs ∧ strategy.Sooner g stem i j

theorem idxOfFilter {keep : Nat → Bool} {xs done rest : List Nat} {i j : Nat}
    (parts : xs.filter keep = done ++ i :: rest) (before : j ∈ done) (fresh : i ∉ done) :
    xs.idxOf j < xs.idxOf i := by
  have kept : ∀ k ∈ done ++ i :: rest, keep k = true := fun k mem =>
    (List.mem_filter.mp (parts ▸ mem)).2
  have keepJ := kept j (List.mem_append_left _ before)
  have keepI := kept i (by simp)
  induction xs generalizing done with
  | nil => simp at parts
  | cons x xs ih =>
    have skip : ∀ k, x ≠ k → (x :: xs).idxOf k = xs.idxOf k + 1 := fun k other => by
      simp [List.idxOf_cons, beq_eq_false_iff_ne.mpr other]
    cases here : keep x with
    | false =>
      have notJ : x ≠ j := fun same => by simp [same, keepJ] at here
      have notI : x ≠ i := fun same => by simp [same, keepI] at here
      rw [List.filter_cons_of_neg (by simp [here])] at parts
      rw [skip j notJ, skip i notI]
      exact Nat.succ_lt_succ (ih parts before fresh kept)
    | true =>
      rw [List.filter_cons_of_pos here] at parts
      cases done with
      | nil => cases before
      | cons d done =>
        obtain ⟨rfl, tail⟩ := List.cons_eq_cons.mp parts
        rw [List.mem_cons, not_or] at fresh
        rw [skip i (Ne.symm fresh.1)]
        rcases List.mem_cons.mp before with rfl | before
        · simp
        · by_cases same : x = j
          · simp [same]
          · rw [skip j same]
            exact Nat.succ_lt_succ
              (ih tail before fresh.2 fun k mem => kept k (List.mem_cons_of_mem _ mem))

section
variable {g : Graph} {rule : Rule} {strategy : Strategy} {taken : Marks}
  {grown done rest nodes : List Nat} {i j : Nat}

theorem soonerOfParts (parts : candidates g taken grown strategy = done ++ i :: rest)
    (before : j ∈ done) (fresh : i ∉ done) : strategy.Sooner g grown j i := by
  have rising : ∀ {xs : List Nat}, xs.Pairwise (· < ·) → xs = done ++ i :: rest → j < i := by
    intro xs sorted same
    rw [same] at sorted
    exact (List.pairwise_append.mp sorted).2.2 j before i (by simp)
  cases strategy with
  | connected => exact idxOfFilter parts before fresh
  | ordered => exact rising (List.Pairwise.filter _ List.pairwise_lt_range') parts
  | unrestricted => exact rising (List.Pairwise.filter _ List.pairwise_lt_range) parts

end

/-- What a part of the search that goes through the sequences `seen` makes of the best so far. -/
structure Improves (g : Graph) (rule : Rule) (strategy : Strategy) (seen : List Nat → Prop)
    (before after : List Nat) : Prop where
  origin : after = before ∨
    (seen after ∧ rule.validate g after = true ∧ before.length < after.length)
  longest : ∀ s, seen s → rule.validate g s = true → s.length ≤ after.length
  first : ∀ s, seen s → rule.validate g s = true → s.length = after.length →
    after = before ∨ s = after ∨ Earlier g strategy after s

namespace Improves
variable {g : Graph} {rule : Rule} {strategy : Strategy} {seen more : List Nat → Prop}
  {before middle after : List Nat}

theorem grows (first : Improves g rule strategy seen before after) :
    before.length ≤ after.length := by
  rcases first.origin with same | ⟨_, _, less⟩
  · exact Nat.le_of_eq (congrArg List.length same.symm)
  · exact Nat.le_of_lt less

theorem congr (first : Improves g rule strategy seen before after)
    (same : ∀ s, more s ↔ seen s) : Improves g rule strategy more before after where
  origin := first.origin.imp_right fun ⟨known, new⟩ => ⟨(same after).mpr known, new⟩
  longest s known := first.longest s ((same s).mp known)
  first s known := first.first s ((same s).mp known)

theorem trans (one : Improves g rule strategy seen before middle)
    (two : Improves g rule strategy more middle after)
    (order : ∀ s t, seen s → more t → s.length = t.length → seen t ∨ Earlier g strategy s t) :
    Improves g rule strategy (fun s => seen s ∨ more s) before after where
  origin := by
  -- Sequences may be gone through again: what counts is where they were met first.
    have grown := one.grows
    rcases two.origin with rfl | ⟨known, valid, less⟩
    · exact one.origin.imp_right fun ⟨known, new⟩ => ⟨Or.inl known, new⟩
    · exact Or.inr ⟨Or.inr known, valid, by omega⟩
  longest s known valid := by
    have grown := two.grows
    rcases known with old | new
    · exact Nat.le_trans (one.longest s old valid) grown
    · exact two.longest s new valid
  first s known valid length := by
    rcases two.origin with rfl | ⟨_, _, less⟩
    · rcases known with old | new
      · exact one.first s old valid length
      · rcases one.origin with same | ⟨found, _, _⟩
        · exact Or.inl same
        · rcases order after s found new length.symm with old | later
          · exact one.first s old valid length
          · exact Or.inr (Or.inr later)
    · rcases known with old | new
      · have short := one.longest s old valid
        omega
      · rcases two.first s new valid length with same | other
        · subst same
          exact absurd less (Nat.lt_irrefl _)
        · exact Or.inr other

theorem none (before : List Nat) :
    Improves g rule strategy (fun _ => False) before before :=
  ⟨Or.inl rfl, fun _ known => known.elim, fun _ known => known.elim⟩

theorem keep (p : Progress) (grown : List Nat) :
    Improves g rule strategy (· = grown) p.best (keep g rule grown p).best where
  origin := by
    unfold Search.keep
    split
    · rename_i better
      simp only [Bool.and_eq_true, decide_eq_true_eq] at better
      exact Or.inr ⟨rfl, better⟩
    · exact Or.inl rfl
  longest s known valid := by
    subst known
    unfold Search.keep
    split
    · exact Nat.le_refl _
    · rename_i worse
      simpa [valid] using worse
  first s known valid length := by
    subst known
    unfold Search.keep
    split
    · exact Or.inr (Or.inl rfl)
    · exact Or.inl rfl

end Improves

section
variable {g : Graph} {rule : Rule} {config : Config} {strategy : Strategy}
  {claimed grown : List Nat} {start room : Nat} {p q : Progress}

def Through (g : Graph) (rule : Rule) (strategy : Strategy) (claimed : List Nat) (start : Nat)
    (grown done nodes : List Nat) : Prop :=
  nodes = grown ∨ ∃ i ∈ done, grown ++ [i] <+: nodes ∧ Sequence g rule strategy claimed start nodes

theorem throughAll (seq : Sequence g rule strategy claimed start grown) (nodes : List Nat) :
    Through g rule strategy claimed start grown
      (candidates g (.ofList g.size claimed) grown strategy) nodes ↔
      grown <+: nodes ∧ Sequence g rule strategy claimed start nodes := by
  constructor
  · intro h
    rcases h with rfl | ⟨i, _, begins, known⟩
    · exact ⟨List.prefix_rfl, seq⟩
    · exact ⟨(List.prefix_append grown [i]).trans begins, known⟩
  · intro h
    obtain ⟨⟨rest, rfl⟩, known⟩ := h
    cases rest with
    | nil => exact Or.inl (List.append_nil grown)
    | cons i rest =>
      obtain ⟨_, offered, _⟩ := known.cut seq.nonempty
      exact Or.inr ⟨i, offered, ⟨rest, by simp⟩, known⟩

theorem throughNext {done rest : List Nat} {i : Nat}
    (seq : Sequence g rule strategy claimed start grown)
    (parts : candidates g (.ofList g.size claimed) grown strategy = done ++ i :: rest)
    {s t : List Nat} (old : Through g rule strategy claimed start grown done s)
    (next : grown ++ [i] <+: t ∧ Sequence g rule strategy claimed start t)
    (same : s.length = t.length) :
    Through g rule strategy claimed start grown done t ∨ Earlier g strategy s t := by
  obtain ⟨⟨bs, rfl⟩, known⟩ := next
  by_cases again : i ∈ done
  · exact Or.inl (Or.inr ⟨i, again, ⟨bs, rfl⟩, known⟩)
  · rcases old with rfl | ⟨j, before, ⟨as, rfl⟩, _⟩
    · simp at same
    · have sooner := soonerOfParts parts before again
      exact Or.inr ⟨grown, j, i, as, bs, by simp, by simp, sooner⟩

theorem expandImproves (seq : Sequence g rule (config.strategyFor rule) claimed start grown)
    (enough : g.size ≤ room + grown.length)
    (run : expand g rule config (.ofList g.size claimed) room grown p = .ok q) :
    Improves g rule (config.strategyFor rule)
      (fun s => grown <+: s ∧ Sequence g rule (config.strategyFor rule) claimed start s)
      p.best q.best := by
  -- One candidate after the other, with `Through` for what the loop has gone through so far.
  induction room generalizing grown p q with
  | zero =>
    obtain ⟨c, counted, run⟩ := bindOk.mp run
    cases run
    rw [← countBest counted]
    refine (Improves.keep c grown).congr fun s => ⟨fun h => ?_, fun same => ?_⟩
    · obtain ⟨begins, known⟩ := h
      have short := known.length
      exact (begins.eq_of_length_le (by omega)).symm
    · subst same
      exact ⟨List.prefix_rfl, seq⟩
  | succ room ih =>
    obtain ⟨c, counted, run⟩ := bindOk.mp run
    rw [← countBest counted]
    refine Improves.congr (foldlMThrough (fun done s => Improves g rule
      (config.strategyFor rule) (Through g rule (config.strategyFor rule) claimed start grown done)
      c.best s.best) run ?_ ?_) fun s => (throughAll seq s).symm
    · refine (Improves.keep c grown).congr fun s => ?_
      simp [Through]
    · intro done i rest s t parts known step
      have offered : i ∈ candidates g (.ofList g.size claimed) grown (config.strategyFor rule) := by
        simp [parts]
      have both : ∀ nodes, Through g rule (config.strategyFor rule) claimed start grown
          (done ++ [i]) nodes ↔ Through g rule (config.strategyFor rule) claimed start grown done
            nodes ∨ (grown ++ [i] <+: nodes ∧
              Sequence g rule (config.strategyFor rule) claimed start nodes) := by
        intro nodes
        simp only [Through, List.mem_append, List.mem_singleton, or_and_right, exists_or,
          exists_eq_left, or_assoc]
      refine Improves.congr ?_ both
      refine known.trans ?_ fun a b old next same => throughNext seq parts old next same
      have step : (if rule.accept g grown i then
          expand g rule config (.ofList g.size claimed) room (grown ++ [i])
            (offer g rule grown i s).2
        else .ok (offer g rule grown i s).2) = .ok t := step
      split at step
      · rename_i accepted
        have longer : g.size ≤ room + (grown ++ [i]).length := by
          simp only [List.length_append, List.length_singleton]
          omega
        exact ih (p := (offer g rule grown i s).2) (seq.grow offered accepted) longer step
      · rename_i refused
        cases step
        refine (Improves.none _).congr fun nodes => ⟨fun h => ?_, False.elim⟩
        obtain ⟨⟨bs, rfl⟩, longer⟩ := h
        rw [List.append_assoc, List.singleton_append] at longer
        exact refused (longer.cut seq.nonempty).2.2

end

end Search

end OpNet
