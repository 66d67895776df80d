import OpNet.Apply

/-!
The rewriting phase as a loop over one graph, for rules that may keep a state of their own. Main
statement: the phase for two lists of matches is the phase for the first and then, unless that has
failed, the phase for the second on the graph that is left; and the rule is called for a match
exactly when all of its nodes are active by then.
-/
namespace OpNet.Apply

theorem Report.counts (r : Report) : r.appliedCount + r.skippedCount = r.outcomes.length := by
  have most : r.appliedCount ≤ r.outcomes.length := List.countP_le_length
  rw [skippedCount]
  omega

theorem continueFailed {rule : Rule} {p : Progress} {e : Error} (failed : p.failure = some e)
    (index : Nat) (found : List Match) : continueFrom rule p index found = p := by
  cases found with
  | nil => rfl
  | cons m rest => simp only [continueFrom, failed]

/-- A rule that reads and changes a state of its own with every rewrite, a log for instance. -/
structure StatefulRule (σ : Type) where
  name : String
  rewrite : List Nat → Graph → σ → Rewritten × σ

structure Place (σ : Type) where
  graph : Graph
  kept : σ

abbrev Phase (σ : Type) := ExceptT Error (StateM (Place σ))

def refusal (rule : String) (index : Nat) (nodes : List Nat) (reason : String) : Error :=
  ({ cause := .rewriteFailed index nodes reason } : Error).during rule "apply_matches"

namespace StatefulRule

section
variable {σ : Type}

def call (rule : StatefulRule σ) (nodes : List Nat) : Phase σ (Option Error) := do
  let place ← get
  let (rewritten, kept) := rule.rewrite nodes place.graph place.kept
  set ({ graph := rewritten.graph, kept } : Place σ)
  return rewritten.failure

def attempt (rule : StatefulRule σ) (index : Nat) (m : Match) : Phase σ Outcome := do
  let place ← get
  match m.nodes.find? fun i => !place.graph.isActive i with
  | some inactive => return .skipped m.nodes inactive
  | none =>
    match ← rule.call m.nodes with
    | none => return .applied m.nodes
    | some e => throw (refusal rule.name index m.nodes e.message)

def attemptAll (rule : StatefulRule σ) (index : Nat) (found : List Match) :
    Phase σ (List Outcome) :=
  (found.zipIdx index).mapM fun entry => rule.attempt entry.2 entry.1

def applyMatches (rule : StatefulRule σ) (found : List Match) (before : Place σ) :
    Except Error Report × Place σ :=
  let (outcomes, after) := (rule.attemptAll 0 found).run.run before
  (outcomes.map Report.mk, after)

end

def logged (rule : Rule) : StatefulRule (List (List Nat)) where
  name := rule.name
  rewrite nodes g log := (rule.rewrite nodes g, log ++ [nodes])

section
variable {σ α β γ : Type} {rule : StatefulRule σ} {before after : Place σ} {index : Nat} {m : Match}
  {ms ns : List Match} {e : Error}

theorem runThen {x : Phase σ α} {y : α → Phase σ β} {join : α → β → γ} {a : α}
    (first : x.run.run before = (.ok a, after)) :
    (x >>= fun a => y a >>= fun b => pure (join a b)).run.run before =
      (((y a).run.run after).1.map (join a), ((y a).run.run after).2) := by
  rw [runOk first]
  cases later : (y a).run.run after with
  | mk answer last =>
    cases answer with
    | ok b => rw [runOk later]; rfl
    | error e => rw [runError later]; rfl

theorem getRun : (get : Phase σ (Place σ)).run.run before = (.ok before, before) := rfl

theorem attemptActive {graph : Graph} {failure : Option Error} {kept : σ}
    (active : stale? before.graph m = none)
    (answer : rule.rewrite m.nodes before.graph before.kept = ({ graph, failure }, kept)) :
    (rule.attempt index m).run.run before =
      (match failure with
        | none => .ok (.applied m.nodes)
        | some e => .error (refusal rule.name index m.nodes e.message),
       { graph, kept }) := by
  have asked : (rule.call m.nodes).run.run before = (.ok failure, { graph, kept }) := by
    rw [call, runOk getRun]
    simp only [answer]
    rfl
  unfold stale? at active
  rw [attempt, runOk getRun, active]
  simp only
  rw [runOk asked]
  cases failure <;> rfl

theorem attemptStale {i : Nat} (stale : stale? before.graph m = some i) :
    (rule.attempt index m).run.run before = (.ok (.skipped m.nodes i), before) := by
  unfold stale? at stale
  rw [attempt, runOk getRun, stale]
  rfl

theorem attemptCases (rule : StatefulRule σ) (m : Match) (before : Place σ) :
    (∃ outcome after, outcome.nodes = m.nodes ∧
      ∀ index, (rule.attempt index m).run.run before = (.ok outcome, after)) ∨
    ∃ reason after, ∀ index, (rule.attempt index m).run.run before =
      (.error (refusal rule.name index m.nodes reason), after) := by
  cases stale : stale? before.graph m with
  | some i => exact Or.inl ⟨.skipped m.nodes i, before, rfl, fun index => attemptStale stale⟩
  | none =>
    cases answer : rule.rewrite m.nodes before.graph before.kept with
    | mk rewritten kept =>
      obtain ⟨graph, failure⟩ := rewritten
      cases failure with
      | none =>
        exact Or.inl ⟨.applied m.nodes, { graph, kept }, rfl, fun index =>
          attemptActive stale answer⟩
      | some e =>
        exact Or.inr ⟨e.message, { graph, kept }, fun index => attemptActive stale answer⟩

theorem attemptAllCons (rule : StatefulRule σ) (index : Nat) (m : Match) (ms : List Match) :
    rule.attemptAll index (m :: ms) = do
      let outcome ← rule.attempt index m
      let outcomes ← rule.attemptAll (index + 1) ms
      return outcome :: outcomes := by
  rw [attemptAll, List.zipIdx_cons, List.mapM_cons]
  rfl

theorem attemptAllAppend (rule : StatefulRule σ) (index : Nat) (ms ns : List Match) :
    rule.attemptAll index (ms ++ ns) = do
      let outcomes ← rule.attemptAll index ms
      let later ← rule.attemptAll (index + ms.length) ns
      return outcomes ++ later := by
  simp only [attemptAll, List.zipIdx_append, List.mapM_append]

theorem attemptAllCases (rule : StatefulRule σ) (ms : List Match) (before : Place σ) :
    (∃ outcomes after, outcomes.map Outcome.nodes = ms.map Match.nodes ∧
      ∀ index, (rule.attemptAll index ms).run.run before = (.ok outcomes, after)) ∨
    ∃ j m reason after, ms[j]? = some m ∧ ∀ index, (rule.attemptAll index ms).run.run before =
      (.error (refusal rule.name (index + j) m.nodes reason), after) := by
  induction ms generalizing before with
  | nil => exact Or.inl ⟨[], before, rfl, fun index => rfl⟩
  | cons m rest ih =>
    simp only [attemptAllCons]
    rcases rule.attemptCases m before with ⟨outcome, middle, same, here⟩ | ⟨reason, after, here⟩
    · rcases ih middle with ⟨outcomes, after, all, later⟩ | ⟨j, bad, reason, after, at_, later⟩
      · refine Or.inl ⟨outcome :: outcomes, after, by simp [same, all], fun index => ?_⟩
        rw [runThen (here index), later]
        rfl
      · refine Or.inr ⟨j + 1, bad, reason, after, at_, fun index => ?_⟩
        rw [runThen (here index), later, Nat.add_assoc, Nat.add_comm 1]
        rfl
    · exact Or.inr ⟨0, m, reason, after, rfl, fun index => runError (here index)⟩

theorem stepLogged (plain : Rule) {p : Progress} (fine : p.failure = none) (index : Nat)
    (m : Match) (log : List (List Nat)) :
    let q := step plain p index m
    (∃ outcome, q.failure = none ∧ q.outcomes = p.outcomes ++ [outcome] ∧
      ((logged plain).attempt index m).run.run ⟨p.graph, log ++ p.attempted⟩ =
        (.ok outcome, ⟨q.graph, log ++ q.attempted⟩)) ∨
    ∃ e, q.failure = some e ∧
      ((logged plain).attempt index m).run.run ⟨p.graph, log ++ p.attempted⟩ =
        (.error e, ⟨q.graph, log ++ q.attempted⟩) := by
  cases stale : stale? p.graph m with
  | some i =>
    refine Or.inl ⟨.skipped m.nodes i, by simp [step, stale, fine], by simp [step, stale], ?_⟩
    rw [attemptStale stale]
    simp [step, stale, Progress.attempted, Outcome.isApplied]
  | none =>
    cases rewritten : plain.rewrite m.nodes p.graph with
    | mk graph failure =>
      have answer : (logged plain).rewrite m.nodes p.graph (log ++ p.attempted) =
          ({ graph, failure }, log ++ p.attempted ++ [m.nodes]) := by simp [logged, rewritten]
      have fresh : stale? (Place.mk p.graph (log ++ p.attempted)).graph m = none := stale
      rw [attemptActive fresh answer]
      cases failure with
      | none =>
        refine Or.inl ⟨.applied m.nodes, by simp [step, stale, rewritten],
          by simp [step, stale, rewritten], ?_⟩
        simp [step, stale, rewritten, fine, Progress.attempted, List.filter_cons, Outcome.isApplied,
          Outcome.nodes]
      | some e =>
        refine Or.inr ⟨refusal plain.name index m.nodes e.message,
          by simp [step, stale, rewritten, refusal], ?_⟩
        simp [step, stale, rewritten, fine, Progress.attempted, logged, refusal, Error.during]

theorem continueLogged {plain : Rule} {p : Progress} (fine : p.failure = none)
    {log : List (List Nat)} {answer : Except Error (List Outcome)}
    {last : Place (List (List Nat))}
    (run : ((logged plain).attemptAll index ms).run.run ⟨p.graph, log ++ p.attempted⟩ =
      (answer, last)) :
    (continueFrom plain p index ms).graph = last.graph ∧
      log ++ (continueFrom plain p index ms).attempted = last.kept ∧
      (continueFrom plain p index ms).report =
        answer.map fun outcomes => { outcomes := p.outcomes ++ outcomes } := by
  induction ms generalizing p index answer with
  | nil =>
    cases run
    simp [continueFrom, Progress.report, fine, Except.map]
  | cons m rest ih =>
    simp only [continueFrom, fine]
    rw [attemptAllCons] at run
    rcases stepLogged plain fine index m log with ⟨outcome, fine, grown, here⟩ | ⟨e, failed, here⟩
    · rw [runThen here] at run
      cases later : ((logged plain).attemptAll (index + 1) rest).run.run
          ⟨(step plain p index m).graph, log ++ (step plain p index m).attempted⟩ with
      | mk answer last =>
        rw [later] at run
        cases run
        obtain ⟨graph, calls, report⟩ := ih fine later
        refine ⟨graph, calls, report.trans ?_⟩
        rw [grown]
        cases answer <;> simp [Except.map]
    · rw [runError here] at run
      cases run
      rw [continueFailed failed]
      refine ⟨rfl, rfl, ?_⟩
      simp [Progress.report, failed, Except.map]

theorem applyMatchesLogged (plain : Rule) (ms : List Match) (g : Graph) (log : List (List Nat)) :
    let p := Apply.applyMatches plain ms g
    (logged plain).applyMatches ms ⟨g, log⟩ = (p.report, ⟨p.graph, log ++ p.attempted⟩) := by
  intro p
  cases run : ((logged plain).attemptAll 0 ms).run.run ⟨g, log⟩ with
  | mk answer last =>
    have none : log ++ Progress.attempted { graph := g } = log := List.append_nil log
    obtain ⟨graph, calls, report⟩ := continueLogged (p := { graph := g }) rfl (none.symm ▸ run)
    simp only [applyMatches, run, p, Apply.applyMatches, graph, calls, report, List.nil_append]

theorem applyAlone (rule : StatefulRule σ) (m : Match) (before : Place σ) :
    rule.applyMatches [m] before =
      (((rule.attempt 0 m).run.run before).1.map fun outcome => { outcomes := [outcome] },
        ((rule.attempt 0 m).run.run before).2) := by
  unfold applyMatches
  rw [attemptAllCons]
  cases here : (rule.attempt 0 m).run.run before with
  | mk answer after =>
    cases answer with
    | ok outcome => rw [runThen here]; rfl
    | error e => rw [runError here]; rfl

theorem applyAppend {outcomes : List Outcome} {middle : Place σ}
    (run : (rule.attemptAll 0 ms).run.run before = (.ok outcomes, middle)) :
    rule.applyMatches (ms ++ ns) before =
      (((rule.attemptAll ms.length ns).run.run middle).1.map fun later =>
          { outcomes := outcomes ++ later },
        ((rule.attemptAll ms.length ns).run.run middle).2) := by
  unfold applyMatches
  rw [attemptAllAppend, Nat.zero_add, runThen run]
  cases ((rule.attemptAll ms.length ns).run.run middle).1 <;> rfl

theorem appendFailed (failed : rule.applyMatches ms before = (.error e, after))
    (ns : List Match) : rule.applyMatches (ms ++ ns) before = (.error e, after) := by
  rcases rule.attemptAllCases ms before with ⟨_, _, _, run⟩ | ⟨_, _, _, _, _, run⟩
  · simp [applyMatches, run 0, Except.map] at failed
  · simp only [applyMatches, run 0, Except.map] at failed
    cases failed
    simp only [applyMatches, attemptAllAppend, runError (run 0)]
    rfl

theorem runOfReport {report : Report} (done : rule.applyMatches ms before = (.ok report, after)) :
    report.outcomes.map Outcome.nodes = ms.map Match.nodes ∧
      (rule.attemptAll 0 ms).run.run before = (.ok report.outcomes, after) := by
  rcases rule.attemptAllCases ms before with ⟨outcomes, _, all, run⟩ | ⟨_, _, _, _, _, run⟩
  · simp only [applyMatches, run 0, Except.map, Prod.mk.injEq, Except.ok.injEq] at done
    obtain ⟨rfl, rfl⟩ := done
    exact ⟨all, run 0⟩
  · simp [applyMatches, run 0, Except.map] at done

theorem appendDone {report : Report} {middle : Place σ}
    (done : rule.applyMatches ms before = (.ok report, middle)) (ns : List Match) :
    (∀ later after, rule.applyMatches ns middle = (.ok later, after) →
      rule.applyMatches (ms ++ ns) before =
        (.ok { outcomes := report.outcomes ++ later.outcomes }, after)) ∧
    ∀ e after, rule.applyMatches ns middle = (.error e, after) →
      ∃ j m reason, ns[j]? = some m ∧ e = refusal rule.name j m.nodes reason ∧
        rule.applyMatches (ms ++ ns) before =
          (.error (refusal rule.name (ms.length + j) m.nodes reason), after) := by
  rw [applyAppend (runOfReport done).2]
  rcases rule.attemptAllCases ns middle with ⟨_, _, _, rest⟩ | ⟨j, m, reason, _, at_, rest⟩
  · simp only [applyMatches, rest, Except.map, Prod.mk.injEq, Except.ok.injEq, and_imp]
    refine ⟨?_, by simp⟩
    rintro later after rfl rfl
    exact ⟨rfl, rfl⟩
  · simp only [applyMatches, rest, Except.map, Prod.mk.injEq, Except.error.injEq, and_imp]
    refine ⟨by simp, ?_⟩
    rintro e after rfl rfl
    exact ⟨j, m, reason, at_, by rw [Nat.zero_add], rfl, rfl⟩

theorem firstInactive {g : Graph} {front rest : List Nat} {i : Nat}
    (parts : m.nodes = front ++ i :: rest) (active : ∀ k ∈ front, g.isActive k = true)
    (inactive : g.isActive i = false) : stale? g m = some i := by
  rw [stale?, parts, List.find?_append, List.find?_eq_none.mpr (by simpa using active)]
  simp [inactive]

theorem phasesCompose (rule : StatefulRule σ) (ms ns : List Match) (before : Place σ) :
    (∀ e after, rule.applyMatches ms before = (.error e, after) →
      rule.applyMatches (ms ++ ns) before = (.error e, after)) ∧
    (∀ report middle, rule.applyMatches ms before = (.ok report, middle) →
      report.outcomes.map Outcome.nodes = ms.map Match.nodes ∧
      report.appliedCount + report.skippedCount = ms.length ∧
      (∀ later after, rule.applyMatches ns middle = (.ok later, after) →
        rule.applyMatches (ms ++ ns) before =
          (.ok { outcomes := report.outcomes ++ later.outcomes }, after)) ∧
      ∀ e after, rule.applyMatches ns middle = (.error e, after) →
        ∃ j m reason, ns[j]? = some m ∧ e = refusal rule.name j m.nodes reason ∧
          rule.applyMatches (ms ++ ns) before =
            (.error (refusal rule.name (ms.length + j) m.nodes reason), after)) ∧
    (∀ m graph failure kept, (∀ i ∈ m.nodes, before.graph.isActive i = true) →
      rule.rewrite m.nodes before.graph before.kept = ({ graph, failure }, kept) →
      rule.applyMatches [m] before =
        (match failure with
          | none => .ok { outcomes := [.applied m.nodes] }
          | some e => .error (refusal rule.name 0 m.nodes e.message),
         { graph, kept })) ∧
    (∀ m front i rest, m.nodes = front ++ i :: rest →
      (∀ k ∈ front, before.graph.isActive k = true) → before.graph.isActive i = false →
      rule.applyMatches [m] before = (.ok { outcomes := [.skipped m.nodes i] }, before)) ∧
    ∀ (plain : Rule) (log : List (List Nat)),
      let p := Apply.applyMatches plain ms before.graph
      (logged plain).applyMatches ms ⟨before.graph, log⟩ =
        (p.report, ⟨p.graph, log ++ p.attempted⟩) := by
  refine ⟨fun e after failed => appendFailed failed ns, ?_, ?_, ?_,
    fun plain => applyMatchesLogged plain ms before.graph⟩
  · intro report middle done
    have all := (runOfReport done).1
    have lengths := congrArg List.length all
    rw [List.length_map, List.length_map] at lengths
    exact ⟨all, report.counts.trans lengths, appendDone done ns⟩
  · intro m graph failure kept active answer
    rw [applyAlone, attemptActive (by simpa [stale?] using active) answer]
    cases failure <;> rfl
  · intro m front i rest parts active inactive
    rw [applyAlone, attemptStale (firstInactive parts active inactive)]
    rfl

end

end StatefulRule

end OpNet.Apply
