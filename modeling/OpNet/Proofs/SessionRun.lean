import OpNet.Session
import OpNet.Proofs.ApplyPhase

/-!
Runs of a session. Main statement: whatever calls it is given, a session is the fold of the passes
that succeeded, its history holds their summaries and nothing else, and a list of keys is tried up
to its first failure.
-/
namespace OpNet

namespace Pass

section
variable {pass : Pass} {g : Graph} {net next : Net} {report : PassReport}

theorem phaseOfRun (done : (pass.run g).report = .ok report) : ∃ found stats applied,
    pass.search g = .ok { found, stats } ∧
      (Apply.applyMatches pass.rule found g).report = .ok applied ∧
      report = { rule := pass.rule.name, strategy := pass.strategy, found, stats,
                 apply := applied } := by
  unfold run at done
  cases searched : pass.search g with
  | error e => simp [searched] at done
  | ok result =>
    simp only [searched] at done
    obtain ⟨applied, phase, rfl⟩ := mapOk.mp done
    exact ⟨result.found, result.stats, applied, rfl, phase, rfl⟩

theorem outcomesOfRun (done : (pass.run g).report = .ok report) :
    report.apply.outcomes.map Apply.Outcome.nodes = report.found.map Match.nodes := by
  obtain ⟨found, stats, applied, _, phase, rfl⟩ := phaseOfRun done
  have logged := Apply.StatefulRule.applyMatchesLogged pass.rule found g []
  simp only [phase] at logged
  exact (Apply.StatefulRule.runOfReport logged).1

theorem foundOfRun (done : (pass.run g).report = .ok report) :
    report.found.length = report.apply.appliedCount + report.apply.skippedCount := by
  have lengths := congrArg List.length (outcomesOfRun done)
  rw [List.length_map, List.length_map] at lengths
  rw [report.apply.counts, lengths]

theorem reportOfNet (ran : pass.runNet net = .ok (report, next)) :
    (pass.run (Graph.ofNet net)).report = .ok report := by
  obtain ⟨run, done, exported⟩ := bindOk.mp ran
  obtain ⟨_, _, same⟩ := bindOk.mp exported
  cases same
  exact done

end

end Pass

namespace Session

def passUnder (catalog : Catalog) (config : Search.Config) (net : Net) (key : String) :
    Except Error Net := do
  let rule ← catalog.create key
  ({ rule, config } : Pass).applyTo net

def Chains : Nat → List PassSummary → Nat → Prop
  | first, [], last => first = last
  | first, summary :: rest, last => summary.opsBefore = first ∧ Chains summary.opsAfter rest last

structure Unchanged (s t : Session) : Prop where
  net : t.net = s.net
  history : t.history = s.history
  catalog : t.catalog = s.catalog
  config : t.config = s.config

structure Passed (s : Session) (key : String) (summary : PassSummary) (t : Session) : Prop where
  net : passUnder s.catalog s.config s.net key = .ok t.net
  history : t.history = s.history ++ [summary]
  catalog : t.catalog = s.catalog
  config : t.config = s.config
  balanced : summary.found = summary.applied + summary.skipped
  before : summary.opsBefore = s.net.ops.length
  after : summary.opsAfter = t.net.ops.length

structure Folds (s : Session) (passes : List (String × PassSummary)) (t : Session) : Prop where
  net : (passes.map Prod.fst).foldlM (passUnder s.catalog s.config) s.net = .ok t.net
  history : t.history = s.history ++ passes.map Prod.snd
  catalog : t.catalog = s.catalog
  config : t.config = s.config
  counts : Chains s.net.ops.length (passes.map Prod.snd) t.net.ops.length

inductive Passes : Session → List (String × PassSummary) → Session → Prop
  | none (s : Session) : Passes s [] s
  | pass {s t u : Session} {key : String} {summary : PassSummary}
      {later : List (String × PassSummary)} (here : s.apply key = (t, .ok summary))
      (rest : Passes t later u) : Passes s ((key, summary) :: later) u

abbrev Attempt := String × Except Error PassSummary

def Attempt.passed (entry : String × PassSummary) : Attempt := (entry.1, .ok entry.2)

/-- What a list of keys attempts and ends with. The first pass that fails is the last attempt,
whatever keys come after it. -/
inductive Tries (s : Session) :
    List String → List Attempt → Session × Except Error (List PassSummary) → Prop
  | all {t : Session} {done : List (String × PassSummary)} (passes : s.Passes done t) :
      s.Tries (done.map Prod.fst) (done.map Attempt.passed) (t, .ok (done.map Prod.snd))
  | failed {t u : Session} {done : List (String × PassSummary)} {key : String} {e : Error}
      (passes : s.Passes done t) (fails : t.apply key = (u, .error e)) (untried : List String) :
      s.Tries (done.map Prod.fst ++ key :: untried) (done.map Attempt.passed ++ [(key, .error e)])
        (u, .error e)

inductive Call
  | apply (key : String)
  | applyAll (keys : List String)

def call (s : Session) : Call → Session
  | .apply key => (s.apply key).1
  | .applyAll keys => (s.applyAll keys).1

def called (s : Session) (calls : List Call) : Session := calls.foldl call s

def attempts (s : Session) : List String → List Attempt
  | [] => []
  | key :: keys =>
    match s.apply key with
    | (_, .error e) => [(key, .error e)]
    | (t, .ok summary) => (key, .ok summary) :: t.attempts keys

def log (s : Session) : List Call → List Attempt
  | [] => []
  | .apply key :: later => [(key, (s.apply key).2)] ++ (s.call (.apply key)).log later
  | .applyAll keys :: later => s.attempts keys ++ (s.call (.applyAll keys)).log later

def succeeded (log : List Attempt) : List (String × PassSummary) :=
  log.filterMap fun attempt => attempt.2.toOption.map (attempt.1, ·)

section
variable {s t u : Session} {key : String} {summary : PassSummary} {e : Error}
  {one two : List (String × PassSummary)}

theorem succeededAppend (early late : List Attempt) :
    succeeded (early ++ late) = succeeded early ++ succeeded late :=
  List.filterMap_append

theorem succeededPassed (done : List (String × PassSummary)) :
    succeeded (done.map Attempt.passed) = done := by
  induction done with
  | nil => rfl
  | cons entry rest ih => exact congrArg (entry :: ·) ih

theorem chainsAppend {first middle last : Nat} {early late : List PassSummary}
    (start : Chains first early middle) (rest : Chains middle late last) :
    Chains first (early ++ late) last := by
  induction early generalizing first with
  | nil =>
    cases start
    exact rest
  | cons summary later ih => exact ⟨start.1, ih start.2⟩

theorem Unchanged.folds (same : s.Unchanged t) : s.Folds [] t where
  net := by rw [same.net]; rfl
  history := by simpa using same.history
  catalog := same.catalog
  config := same.config
  counts := by rw [same.net]; rfl

theorem Passed.folds (passed : s.Passed key summary t) : s.Folds [(key, summary)] t where
  net := by simpa using passed.net
  history := passed.history
  catalog := passed.catalog
  config := passed.config
  counts := ⟨passed.before, passed.after⟩

theorem Folds.refl (s : Session) : s.Folds [] s := Unchanged.folds ⟨rfl, rfl, rfl, rfl⟩

theorem Folds.append (start : s.Folds one t) (rest : t.Folds two u) : s.Folds (one ++ two) u where
  net := by
    rw [List.map_append, List.foldlM_append, start.net, ← start.catalog, ← start.config]
    exact rest.net
  history := by rw [rest.history, start.history, List.append_assoc, List.map_append]
  catalog := rest.catalog.trans start.catalog
  config := rest.config.trans start.config
  counts := by
    rw [List.map_append]
    exact chainsAppend start.counts rest.counts

theorem passUnderCreated {catalog : Catalog} {config : Search.Config} {net : Net} {rule : Rule}
    (created : catalog.create key = .ok rule) :
    passUnder catalog config net key = (({ rule, config } : Pass).runNet net).map Prod.snd := by
  simp only [passUnder, created, bind, Except.bind, Pass.applyTo]

theorem completedOfApply (ok : s.apply key = (t, .ok summary)) : ∃ rule report net,
    s.catalog.create key = .ok rule ∧ (s.pass rule).runNet s.net = .ok (report, net) ∧
      summary = .ofReport report s.net.ops.length net.ops.length ∧
      t = { s with
        net
        tracer := s.tracer.recordPass report
        history := s.history ++ [summary] } := by
  unfold apply at ok
  cases created : s.catalog.create key with
  | error e => simp [created] at ok
  | ok rule =>
    simp only [created, applyRule] at ok
    cases ran : (s.pass rule).runNet s.net with
    | error e => simp [ran] at ok
    | ok written =>
      obtain ⟨report, net⟩ := written
      simp only [ran, Prod.mk.injEq, Except.ok.injEq] at ok
      obtain ⟨rfl, rfl⟩ := ok
      exact ⟨rule, report, net, rfl, ran, rfl, rfl⟩

theorem passedOfApply (ok : s.apply key = (t, .ok summary)) : s.Passed key summary t := by
  obtain ⟨rule, report, net, created, ran, rfl, rfl⟩ := completedOfApply ok
  refine ⟨?_, rfl, rfl, rfl, Pass.foundOfRun (Pass.reportOfNet ran), rfl, rfl⟩
  rw [passUnderCreated created, ← pass, ran]
  rfl

theorem refusedOfApply (failed : s.apply key = (t, .error e)) :
    s.Unchanged t ∧ passUnder s.catalog s.config s.net key = .error e := by
  unfold apply at failed
  cases created : s.catalog.create key with
  | error e =>
    simp only [created, Prod.mk.injEq, Except.error.injEq] at failed
    obtain ⟨rfl, rfl⟩ := failed
    refine ⟨⟨rfl, rfl, rfl, rfl⟩, ?_⟩
    simp only [passUnder, created, bind, Except.bind]
  | ok rule =>
    simp only [created, applyRule] at failed
    cases ran : (s.pass rule).runNet s.net with
    | ok written => simp [ran] at failed
    | error e =>
      simp only [ran, Prod.mk.injEq, Except.error.injEq] at failed
      obtain ⟨rfl, rfl⟩ := failed
      refine ⟨⟨rfl, rfl, rfl, rfl⟩, ?_⟩
      rw [passUnderCreated created, ← pass, ran]
      rfl

theorem Passes.folds (passes : s.Passes one t) : s.Folds one t := by
  induction passes with
  | none s => exact .refl s
  | pass here _ ih => exact (passedOfApply here).folds.append ih

theorem Tries.folds {keys : List String} {log : List Attempt}
    {result : Session × Except Error (List PassSummary)} (tries : s.Tries keys log result) :
    s.Folds (succeeded log) result.1 := by
  cases tries with
  | all passes =>
    rw [succeededPassed]
    exact passes.folds
  | failed passes fails =>
    rw [succeededAppend, succeededPassed]
    exact passes.folds.append (refusedOfApply fails).1.folds

end

theorem applyFolds (s : Session) (key : String) :
    s.Folds (succeeded [(key, (s.apply key).2)]) (s.apply key).1 := by
  cases called : s.apply key with
  | mk t answer =>
    cases answer with
    | ok summary => exact (passedOfApply called).folds
    | error e => exact (refusedOfApply called).1.folds

theorem applyAllTries (s : Session) (keys : List String) :
    s.Tries keys (s.attempts keys) (s.applyAll keys) := by
  induction keys generalizing s with
  | nil => exact .all (.none s)
  | cons key keys ih =>
    cases called : s.apply key with
    | mk t answer =>
      simp only [applyAll, attempts, called]
      cases answer with
      | error e => exact .failed (.none s) called keys
      | ok summary =>
        have tries := ih t
        dsimp only
        revert tries
        generalize t.applyAll keys = result, t.attempts keys = log
        rintro (passes | ⟨passes, fails, untried⟩)
        · exact .all (.pass called passes)
        · exact .failed (.pass called passes) fails untried

theorem calledFolds (s : Session) (calls : List Call) :
    s.Folds (succeeded (s.log calls)) (s.called calls) := by
  induction calls generalizing s with
  | nil => exact .refl s
  | cons c later ih =>
    cases c with
    | apply key =>
      rw [log, succeededAppend]
      exact (applyFolds s key).append (ih (s.call (.apply key)))
    | applyAll keys =>
      rw [log, succeededAppend]
      exact (applyAllTries s keys).folds.append (ih (s.call (.applyAll keys)))

theorem sessionFoldsPasses (net : Net) (catalog : Catalog) (config : Search.Config)
    (tracer : Trace.Tracer) (calls : List Call) :
    let start : Session := { net, catalog, config, tracer }
    let s := start.called calls
    let passes := succeeded (start.log calls)
    (passes.map Prod.fst).foldlM (passUnder catalog config) net = .ok s.net ∧
      s.history = passes.map Prod.snd ∧ s.catalog = catalog ∧ s.config = config ∧
      Chains net.ops.length s.history s.net.ops.length ∧
      (∀ key t e, s.apply key = (t, .error e) →
        s.Unchanged t ∧ passUnder catalog config s.net key = .error e) ∧
      (∀ key t summary, s.apply key = (t, .ok summary) → s.Passed key summary t) ∧
      ∀ keys, s.Tries keys (s.attempts keys) (s.applyAll keys) ∧
        s.Folds (succeeded (s.attempts keys)) (s.applyAll keys).1 := by
  intro start s passes
  have folds : start.Folds passes s := calledFolds start calls
  have history : s.history = passes.map Prod.snd := folds.history
  refine ⟨folds.net, history, folds.catalog, folds.config, history ▸ folds.counts, ?_, ?_, ?_⟩
  · intro key t e failed
    obtain ⟨same, refused⟩ := refusedOfApply failed
    rw [folds.catalog, folds.config] at refused
    exact ⟨same, refused⟩
  · intro key t summary ok
    exact passedOfApply ok
  · intro keys
    exact ⟨applyAllTries s keys, (applyAllTries s keys).folds⟩

end Session

end OpNet
