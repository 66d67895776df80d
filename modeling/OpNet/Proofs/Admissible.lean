import OpNet.Search

/-!
What a search can find. `Admissible` holds of the node sequences that the search explores, each
node offered by the strategy and accepted by the rule. Main statements: every match is admissible
and validated and shares no node with an earlier one; and without a limit a search always ends
well.
-/
namespace OpNet

/-! The last of the nodes in a list. -/

section
variable {nodes : List Nat} {last i : Nat}

theorem existsLast (nonempty : nodes ≠ []) : ∃ last, nodes.getLast? = some last :=
  Option.isSome_iff_exists.mp (List.getLast?_isSome.mpr nonempty)

theorem innerOrLast (found : nodes.getLast? = some last) (mem : i ∈ nodes) :
    i ∈ nodes.dropLast ∨ i = last := by
  obtain ⟨front, rfl⟩ := List.getLast?_eq_some_iff.mp found
  simpa using mem

theorem atMostLast (ascending : nodes.Pairwise (· < ·)) (found : nodes.getLast? = some last)
    (mem : i ∈ nodes) : i ≤ last := by
  obtain ⟨front, rfl⟩ := List.getLast?_eq_some_iff.mp found
  rcases List.mem_append.mp mem with before | same
  · exact Nat.le_of_lt ((List.pairwise_append.mp ascending).2.2 i before last (by simp))
  · exact Nat.le_of_eq (List.mem_singleton.mp same)

theorem ascendingNext (ascending : nodes.Pairwise (· < ·)) (found : nodes.getLast? = some last)
    (above : last < i) : (nodes ++ [i]).Pairwise (· < ·) := by
  refine List.pairwise_append.mpr ⟨ascending, List.pairwise_singleton _ _, fun m mem k same => ?_⟩
  rw [List.mem_singleton.mp same]
  exact Nat.lt_of_le_of_lt (atMostLast ascending found mem) above

end

end OpNet

namespace OpNet.Search

/-! Folds that may fail. -/

section
variable {σ α ε : Type} {step : σ → α → Except ε σ} {xs : List α} {first last : σ}

theorem foldlMThrough (good : List α → σ → Prop) (run : xs.foldlM step first = .ok last)
    (start : good [] first)
    (each : ∀ done x rest s t, xs = done ++ x :: rest → good done s → step s x = .ok t →
      good (done ++ [x]) t) : good xs last := by
  have later : ∀ done rest s, xs = done ++ rest → good done s → rest.foldlM step s = .ok last →
      good xs last := by
    intro done rest s parts known run
    induction rest generalizing done s with
    | nil =>
      cases run
      rwa [parts, List.append_nil]
    | cons x rest ih =>
      rw [List.foldlM_cons] at run
      obtain ⟨t, here, run⟩ := bindOk.mp run
      exact ih (done ++ [x]) t (by simp [parts]) (each done x rest s t parts known here) run
  exact later [] xs first rfl start run

theorem foldlMKeeps {good : σ → Prop} (run : xs.foldlM step first = .ok last) (start : good first)
    (each : ∀ s, ∀ x ∈ xs, ∀ t, good s → step s x = .ok t → good t) : good last := by
  refine foldlMThrough (fun _ s => good s) run start fun done x rest s t parts known here => ?_
  exact each s x (by simp [parts]) t known here

theorem foldlMOk (first : σ) (each : ∀ s, ∀ x ∈ xs, ∃ t, step s x = .ok t) :
    ∃ last, xs.foldlM step first = .ok last := by
  induction xs generalizing first with
  | nil => exact ⟨first, rfl⟩
  | cons x rest ih =>
    obtain ⟨next, here⟩ := each first x (by simp)
    obtain ⟨last, later⟩ := ih next fun s y mem => each s y (by simp [mem])
    exact ⟨last, by rw [List.foldlM_cons, here]; exact later⟩

end

inductive Admissible (g : Graph) (rule : Rule) (strategy : Strategy) (taken : Marks) :
    List Nat → Prop where
  | start {i} (inside : i < g.size) (free : taken.has i = false)
      (accepted : rule.accept g [] i = true) : Admissible g rule strategy taken [i]
  | grow {grown i} (before : Admissible g rule strategy taken grown)
      (offered : i ∈ candidates g taken grown strategy) (accepted : rule.accept g grown i = true) :
      Admissible g rule strategy taken (grown ++ [i])

section
variable {g : Graph} {rule : Rule} {config : Config} {strategy : Strategy} {taken : Marks}
  {grown : List Nat} {i room : Nat} {p q : Progress}

theorem candidateFree (offered : i ∈ candidates g taken grown strategy) :
    i < g.size ∧ taken.has i = false := by
  cases strategy with
  | connected =>
    simp only [candidates, List.mem_filter, Bool.and_eq_true, Bool.not_eq_true',
      decide_eq_true_eq] at offered
    exact ⟨offered.2.2, offered.2.1.2⟩
  | ordered =>
    simp only [candidates, List.mem_filter, List.mem_range'_1, Bool.not_eq_true'] at offered
    exact ⟨by omega, offered.2⟩
  | unrestricted =>
    simp only [candidates, List.mem_filter, List.mem_range, Bool.and_eq_true,
      Bool.not_eq_true'] at offered
    exact ⟨offered.1, offered.2.2⟩

theorem Admissible.free (admissible : Admissible g rule strategy taken grown) :
    ∀ i ∈ grown, i < g.size ∧ taken.has i = false := by
  induction admissible with
  | start inside free _ => exact List.forall_mem_singleton.mpr ⟨inside, free⟩
  | grow _ offered _ ih =>
    exact List.forall_mem_append.mpr ⟨ih, List.forall_mem_singleton.mpr (candidateFree offered)⟩

theorem Admissible.nonempty (admissible : Admissible g rule strategy taken grown) :
    grown ≠ [] := by
  cases admissible with
  | start => simp
  | grow => simp

def Progress.Legal (g : Graph) (rule : Rule) (strategy : Strategy) (taken : Marks)
    (p : Progress) : Prop :=
  p.best = [] ∨ (Admissible g rule strategy taken p.best ∧ rule.validate g p.best = true)

theorem Progress.Legal.inside (legal : p.Legal g rule strategy taken) :
    ∀ i ∈ p.best, i < g.size := by
  rcases legal with none | ⟨admissible, _⟩
  · simp [none]
  · exact fun i mem => (admissible.free i mem).1

theorem counts (counted : count rule config p = .ok q) :
    q = { p with stats := { p.stats with expansions := p.stats.expansions + 1 } } := by
  simp only [count] at counted
  split at counted
  · split at counted
    · cases counted
    · cases counted
      rfl
  · cases counted
    rfl

theorem countBest (counted : count rule config p = .ok q) : q.best = p.best := by
  rw [counts counted]

theorem countOk (unlimited : config.maxExpansions = none) (rule : Rule) (p : Progress) :
    ∃ q, count rule config p = .ok q := by
  unfold count
  rw [unlimited]
  exact ⟨_, rfl⟩

theorem keepLegal (legal : p.Legal g rule strategy taken)
    (admissible : Admissible g rule strategy taken grown) :
    (keep g rule grown p).Legal g rule strategy taken := by
  unfold keep
  split
  · rename_i better
    simp only [Bool.and_eq_true] at better
    exact Or.inr ⟨admissible, better.1⟩
  · exact legal

theorem expandLegal (admissible : Admissible g rule (config.strategyFor rule) taken grown)
    (legal : p.Legal g rule (config.strategyFor rule) taken)
    (run : expand g rule config taken room grown p = .ok q) :
    q.Legal g rule (config.strategyFor rule) taken := by
  induction room generalizing grown p q with
  | zero =>
    unfold expand at run
    cases counted : count rule config p with
    | error e => simp [counted, bind, Except.bind] at run
    | ok c =>
      simp only [counted, bind, Except.bind, pure, Except.pure, Except.ok.injEq] at run
      have start : c.Legal g rule (config.strategyFor rule) taken := by
        rwa [Progress.Legal, countBest counted]
      exact run ▸ keepLegal start admissible
  | succ room ih =>
    unfold expand at run
    cases counted : count rule config p with
    | error e => simp [counted, bind, Except.bind] at run
    | ok c =>
      simp only [counted, bind, Except.bind] at run
      have start : c.Legal g rule (config.strategyFor rule) taken := by
        rwa [Progress.Legal, countBest counted]
      refine foldlMKeeps run (keepLegal start admissible) fun s i offered t legal step => ?_
      split at step
      · rename_i accepted
        have same : (offer g rule grown i s).2.Legal g rule (config.strategyFor rule) taken := legal
        exact ih (admissible.grow offered accepted) same step
      · cases step
        exact legal

theorem expandOk (unlimited : config.maxExpansions = none) (p : Progress) :
    ∃ q, expand g rule config taken room grown p = .ok q := by
  induction room generalizing grown p with
  | zero =>
    obtain ⟨c, counted⟩ := countOk unlimited rule p
    exact ⟨keep g rule grown c, by simp [expand, counted, bind, Except.bind, pure, Except.pure]⟩
  | succ room ih =>
    obtain ⟨c, counted⟩ := countOk unlimited rule p
    unfold expand
    simp only [counted, bind, Except.bind]
    refine foldlMOk _ fun s i _ => ?_
    split
    · exact ih _
    · exact ⟨_, rfl⟩

end

section
variable {g : Graph} {rule : Rule} {config : Config} {taken : Marks} {start : Nat} {stats : Stats}
  {p : Progress}

theorem fromStartLegal (inside : start < g.size)
    (run : fromStart g rule config taken start stats = .ok p) :
    p.Legal g rule (config.strategyFor rule) taken := by
  simp only [fromStart] at run
  split at run
  · cases run
    exact Or.inl rfl
  · rename_i free
    split at run
    · rename_i accepted
      exact expandLegal (Admissible.start inside (by simpa using free) accepted) (Or.inl rfl) run
    · cases run
      exact Or.inl rfl

theorem fromStartOk (unlimited : config.maxExpansions = none) (g : Graph) (rule : Rule)
    (taken : Marks) (start : Nat) (stats : Stats) :
    ∃ p, fromStart g rule config taken start stats = .ok p := by
  simp only [fromStart]
  split
  · exact ⟨_, rfl⟩
  · split
    · exact expandOk unlimited _
    · exact ⟨_, rfl⟩

structure Found.Legal (g : Graph) (rule : Rule) (strategy : Strategy) (f : Found) : Prop where
  each : ∀ m ∈ f.found, rule.validate g m.nodes = true ∧
    ∃ taken, Admissible g rule strategy taken m.nodes
  apart : f.found.Pairwise fun a b => ∀ i ∈ a.nodes, i ∉ b.nodes

theorem Found.Legal.add {f : Found} (legal : f.Legal g rule (config.strategyFor rule))
    (next : p.Legal g rule (config.strategyFor rule) (f.taken g.size)) :
    (f.add p).Legal g rule (config.strategyFor rule) := by
  unfold Found.add
  rcases next with none | ⟨admissible, valid⟩
  · simpa [none] using ⟨legal.each, legal.apart⟩
  · have some : p.best.isEmpty = false := by simpa using admissible.nonempty
    simp only [some]
    exact {
      each := List.forall_mem_append.mpr
        ⟨legal.each, List.forall_mem_singleton.mpr ⟨valid, _, admissible⟩⟩
      apart := by
        refine List.pairwise_append.mpr ⟨legal.apart, List.pairwise_singleton _ _, ?_⟩
        intro m mem new same i old here
        rw [List.mem_singleton.mp same] at here
        obtain ⟨inside, free⟩ := admissible.free i here
        have marked := Marks.hasOfList.mpr ⟨List.mem_flatMap.mpr ⟨m, mem, old⟩, inside⟩
        simp [Found.taken, marked] at free }

theorem findMatchesLegal {f : Found} (run : findMatches g rule config = .ok f) :
    f.Legal g rule (config.strategyFor rule) := by
  refine foldlMKeeps run ⟨by simp, List.Pairwise.nil⟩ fun f start mem next legal step => ?_
  cases here : fromStart g rule config (f.taken g.size) start f.stats with
  | error e => simp [here, bind, Except.bind] at step
  | ok p =>
    simp only [here, bind, Except.bind, pure, Except.pure, Except.ok.injEq] at step
    exact step ▸ legal.add (fromStartLegal (List.mem_range.mp mem) here)

theorem findMatchesOk (unlimited : config.maxExpansions = none) (g : Graph) (rule : Rule) :
    ∃ f, findMatches g rule config = .ok f := by
  refine foldlMOk _ fun f start _ => ?_
  obtain ⟨p, here⟩ := fromStartOk unlimited g rule (f.taken g.size) start f.stats
  exact ⟨f.add p, by simp [here, bind, Except.bind, pure, Except.pure]⟩

end

end OpNet.Search
