import OpNet.Proofs.SharedBuffers

/-!
A search under a limit, beside the search without one. The two go the same way until the count of
expansions passes the limit, and then the one stops. Main statement: the search without a limit
comes to an end and never fails, also over shared buffers, and a limit changes nothing unless the
whole count is over it; then the search fails, and says so.
-/
namespace OpNet.Search

def withinLimit (limit : Nat) (rule : Rule) (spent : σ → Nat) (s : σ) : Except Error σ :=
  if spent s ≤ limit then .ok s else .error (Cause.limitExceeded limit (some rule.name))

/-- From a count of `before`, `limited` comes to what `unlimited` does, if that is within the
limit. -/
structure Cut (limit : Nat) (rule : Rule) (spent : σ → Nat) (before : Nat)
    (limited unlimited : Except Error σ) (after : σ) : Prop where
  ends : unlimited = .ok after
  grows : before ≤ spent after
  agrees : before ≤ limit → limited = withinLimit limit rule spent after

namespace Cut
variable {limit before : Nat} {rule : Rule} {spent : σ → Nat} {counted : τ → Nat}

theorem ofSame {s : σ} (kept : spent s = before) :
    Cut limit rule spent before (.ok s) (.ok s) s where
  ends := rfl
  grows := Nat.le_of_eq kept.symm
  agrees within := (if_pos (Nat.le_trans (Nat.le_of_eq kept) within)).symm

theorem bind {x y : Except Error σ} {f h : σ → Except Error τ} {s : σ} {t : τ}
    (one : Cut limit rule spent before x y s)
    (two : Cut limit rule counted (spent s) (f s) (h s) t) :
    Cut limit rule counted before (x >>= f) (y >>= h) t where
  ends := bindOk.mpr ⟨s, one.ends, two.ends⟩
  grows := Nat.le_trans one.grows two.grows
  agrees within := by
    rw [one.agrees within]
    unfold withinLimit
    by_cases more : spent s ≤ limit
    · rw [if_pos more]
      exact two.agrees more
    · -- Stopped in the first part already; the count of the second only adds to it.
      have beyond : ¬ counted t ≤ limit := fun less => more (Nat.le_trans two.grows less)
      rw [if_neg more, if_neg beyond]
      rfl

theorem foldlM {step unlimited : σ → α → Except Error σ} {xs : List α}
    (each : ∀ s, ∀ x ∈ xs, ∃ t, Cut limit rule spent (spent s) (step s x) (unlimited s x) t)
    (s : σ) :
    ∃ t, Cut limit rule spent (spent s) (xs.foldlM step s) (xs.foldlM unlimited s) t := by
  induction xs generalizing s with
  | nil => exact ⟨s, ofSame rfl⟩
  | cons x rest ih =>
    obtain ⟨t, here⟩ := each s x (by simp)
    obtain ⟨last, later⟩ := ih (fun s y mem => each s y (by simp [mem])) t
    simp only [List.foldlM_cons]
    exact ⟨last, here.bind later⟩

end Cut

section
variable {g : Graph} {rule : Rule} {config : Config} {taken : Marks} {grown : List Nat}
  {limit room start : Nat} {p q : Progress} {stats : Stats} {f : Found}

abbrev Progress.spent (p : Progress) : Nat := p.stats.expansions

abbrev Found.spent (f : Found) : Nat := f.stats.expansions

def Config.limitedTo (config : Config) (limit : Nat) : Config :=
  { config with maxExpansions := some limit }

theorem countCut (unlimited : config.maxExpansions = none) (p : Progress) :
    ∃ q, Cut limit rule Progress.spent p.spent (count rule (config.limitedTo limit) p)
      (count rule config p) q := by
  refine ⟨{ p with stats := { p.stats with expansions := p.spent + 1 } }, ?_, ?_, fun _ => ?_⟩
  · simp [count, unlimited]
  · exact Nat.le_succ _
  · simp only [count, Config.limitedTo, withinLimit]
    by_cases beyond : limit < p.spent + 1
    · rw [if_pos beyond, if_neg (Nat.not_le.mpr beyond)]
    · rw [if_neg beyond, if_pos (Nat.not_lt.mp beyond)]

theorem spentKeep : (keep g rule grown p).spent = p.spent := by
  unfold keep
  split
  · rfl
  · rfl

theorem expandCut (unlimited : config.maxExpansions = none) (p : Progress) :
    ∃ q, Cut limit rule Progress.spent p.spent
      (expand g rule (config.limitedTo limit) taken room grown p)
      (expand g rule config taken room grown p) q := by
  induction room generalizing grown p with
  | zero =>
    obtain ⟨c, counted⟩ := countCut unlimited p
    exact ⟨keep g rule grown c, counted.bind (.ofSame spentKeep)⟩
  | succ room ih =>
    obtain ⟨c, counted⟩ := countCut unlimited p
    have each : ∀ s, ∀ i ∈ candidates g taken grown (config.strategyFor rule), ∃ t,
        Cut limit rule Progress.spent s.spent
          (if rule.accept g grown i then
            expand g rule (config.limitedTo limit) taken room (grown ++ [i])
              (offer g rule grown i s).2
          else .ok (offer g rule grown i s).2)
          (if rule.accept g grown i then
            expand g rule config taken room (grown ++ [i]) (offer g rule grown i s).2
          else .ok (offer g rule grown i s).2) t := by
      intro s i _
      split
      · exact ih (offer g rule grown i s).2
      · exact ⟨(offer g rule grown i s).2, .ofSame rfl⟩
    obtain ⟨q, later⟩ := Cut.foldlM each (keep g rule grown c)
    rw [spentKeep] at later
    exact ⟨q, counted.bind later⟩

theorem fromStartCut (unlimited : config.maxExpansions = none) (g : Graph) (rule : Rule)
    (taken : Marks) (start limit : Nat) (stats : Stats) :
    ∃ q, Cut limit rule Progress.spent stats.expansions
      (fromStart g rule (config.limitedTo limit) taken start stats)
      (fromStart g rule config taken start stats) q := by
  simp only [fromStart]
  split
  · exact ⟨{ stats }, .ofSame rfl⟩
  · split
    · exact expandCut unlimited (offer g rule [] start { stats }).2
    · exact ⟨(offer g rule [] start { stats }).2, .ofSame rfl⟩

theorem findMatchesCut (unlimited : config.maxExpansions = none) (g : Graph) (rule : Rule)
    (limit : Nat) :
    ∃ f, Cut limit rule Found.spent 0 (findMatches g rule (config.limitedTo limit))
      (findMatches g rule config) f := by
  refine Cut.foldlM (fun f start _ => ?_) ({} : Found)
  obtain ⟨p, here⟩ := fromStartCut unlimited g rule (f.taken g.size) start limit f.stats
  exact ⟨f.add p, here.bind (.ofSame rfl)⟩

/-! What the counters say. -/

structure Stats.Balanced (s : Stats) : Prop where
  expanded : s.expansions = s.accepted
  offered : s.accepted ≤ s.tried

structure Stats.Pending (s : Stats) : Prop where
  accepted : s.accepted = s.expansions + 1
  offered : s.accepted ≤ s.tried

theorem countBalanced (pending : p.stats.Pending) (counted : count rule config p = .ok q) :
    q.stats.Balanced := by
  rw [counts counted]
  exact ⟨pending.accepted.symm, pending.offered⟩

theorem keepBalanced (balanced : p.stats.Balanced) : (keep g rule grown p).stats.Balanced := by
  unfold keep
  split
  · exact balanced
  · exact balanced

theorem offerPending {i : Nat} (balanced : p.stats.Balanced)
    (accepted : rule.accept g grown i = true) : (offer g rule grown i p).2.stats.Pending where
  accepted := by simp [offer, accepted, balanced.expanded]
  offered := by simpa [offer, accepted] using balanced.offered

theorem offerBalanced {i : Nat} (balanced : p.stats.Balanced)
    (refused : ¬ rule.accept g grown i = true) : (offer g rule grown i p).2.stats.Balanced where
  expanded := by simp [offer, refused, balanced.expanded]
  offered := by simpa [offer, refused] using Nat.le_succ_of_le balanced.offered

theorem expandBalanced (pending : p.stats.Pending)
    (run : expand g rule config taken room grown p = .ok q) : q.stats.Balanced := by
  induction room generalizing grown p q with
  | zero =>
    obtain ⟨c, counted, run⟩ := bindOk.mp run
    cases run
    exact keepBalanced (countBalanced pending counted)
  | succ room ih =>
    obtain ⟨c, counted, run⟩ := bindOk.mp run
    refine foldlMThrough (fun _ s => s.stats.Balanced) run
      (keepBalanced (countBalanced pending counted)) fun _ i _ s t _ balanced step => ?_
    have step : (if rule.accept g grown i then
        expand g rule config taken room (grown ++ [i]) (offer g rule grown i s).2
      else .ok (offer g rule grown i s).2) = .ok t := step
    split at step
    · rename_i accepted
      exact ih (offerPending balanced accepted) step
    · rename_i refused
      cases step
      exact offerBalanced balanced refused

theorem fromStartBalanced (balanced : stats.Balanced)
    (run : fromStart g rule config taken start stats = .ok p) : p.stats.Balanced := by
  simp only [fromStart] at run
  split at run
  · cases run
    exact balanced
  · split at run
    · rename_i accepted
      exact expandBalanced (offerPending balanced accepted) run
    · rename_i refused
      cases run
      exact offerBalanced balanced refused

theorem findMatchesBalanced (run : findMatches g rule config = .ok f) : f.stats.Balanced := by
  refine foldlMThrough (fun _ f => f.stats.Balanced) run ⟨rfl, Nat.le_refl 0⟩
    fun _ start _ f next _ balanced step => ?_
  obtain ⟨p, here, step⟩ := bindOk.mp step
  cases step
  exact fromStartBalanced balanced here

end

theorem limitExact (origin : Graph.Origin) (edits : List Edit) (rule : Rule)
    (strategy : Option Strategy) :
    let g := origin.graph.edited edits
    ∃ f, findMatches g rule { strategy } = .ok f ∧
      f.stats.expansions = f.stats.accepted ∧ f.stats.accepted ≤ f.stats.tried ∧
      (∀ limit, findMatches g rule { strategy, maxExpansions := some limit } =
        if f.stats.expansions ≤ limit then .ok f
        else .error (Cause.limitExceeded limit (some rule.name))) ∧
      ∀ maxExpansions, Shared.findMatches g rule { strategy, maxExpansions } =
        some (findMatches g rule { strategy, maxExpansions }) := by
  intro g
  have sound : Graph.Sound g := Graph.soundEdited (Graph.soundOrigin origin) edits
  have unlimited : ({ strategy } : Config).maxExpansions = none := rfl
  obtain ⟨f, whole⟩ := findMatchesOk unlimited g rule
  have balanced := findMatchesBalanced whole
  refine ⟨f, whole, balanced.expanded, balanced.offered, fun limit => ?_, fun maxExpansions =>
    Shared.findMatchesEnds sound.toMirrored rule _⟩
  obtain ⟨h, cut⟩ := findMatchesCut unlimited g rule limit
  have same : h = f := Except.ok.inj (cut.ends.symm.trans whole)
  exact same ▸ cut.agrees (Nat.zero_le limit)

end OpNet.Search
