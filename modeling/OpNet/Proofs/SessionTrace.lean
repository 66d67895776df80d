import OpNet.Proofs.RecentHistory
import OpNet.Proofs.SessionRun
import Mathlib.Data.List.ReduceOption

/-!
The trace of a session beside its passes. Main statement: whatever keys a session is given, its
tracer holds one block of events for each call that finds a rule, numbered by pass; a block tells
how the pass went, match by match, or why it failed; and the blocks of the passes that succeeded
agree, in order, with the history.
-/
namespace OpNet.Session
open Trace

inductive Settles : Event → Event → Prop
  | applied (index : Nat) (nodes : List Nat) :
      Settles (.matchFound index nodes) (.matchApplied index nodes)
  | skipped (index : Nat) (nodes : List Nat) (inactive : Nat) :
      Settles (.matchFound index nodes) (.matchSkipped index nodes inactive)

inductive Tells (e : Error) : Event → Prop
  | rewrite {index : Nat} {nodes : List Nat} {reason : String}
      (cause : e.cause = .rewriteFailed index nodes reason) :
      Tells e (.rewriteFailed index nodes reason)
  | other (cause : ∀ index nodes reason, e.cause ≠ .rewriteFailed index nodes reason) :
      Tells e (.custom "error" e.message)

def outcome? : Event → Option Apply.Outcome
  | .matchApplied _ nodes => some (.applied nodes)
  | .matchSkipped _ nodes inactive => some (.skipped nodes inactive)
  | _ => none

inductive Block (rule : String) (strategy : Strategy) :
    Except Error (PassReport × Net) → List Event → Prop
  | completed {report : PassReport} {next : Net} {settled : List Event}
      (settles : List.Forall₂ Settles
        (report.found.mapIdx fun index m => .matchFound index m.nodes) settled)
      (outcomes : settled.map outcome? = report.apply.outcomes.map some) :
      Block rule strategy (.ok (report, next))
        ([.passStart rule strategy] ++
          (report.found.mapIdx fun index m => .matchFound index m.nodes) ++
          [.searchStats report.stats] ++ settled ++
          [.passEnd rule report.apply.appliedCount report.apply.skippedCount true])
  | failed {e : Error} {reason : Event} (tells : Tells e reason) :
      Block rule strategy (.error e)
        [.passStart rule strategy, reason, .passEnd rule 0 0 false]

/-- What a call records, if any rule has its key, the summary of its pass, if it succeeds, and the
net that it leaves. -/
inductive Leaves (catalog : Catalog) (config : Search.Config) (net : Net) (key : String) :
    Option (List Event) → Option PassSummary → Net → Prop
  | unknown (unknown : catalog.contains key = false) : Leaves catalog config net key none none net
  | completed {rule : Rule} {report : PassReport} {next : Net} {events : List Event}
      (created : catalog.create key = .ok rule)
      (ran : (Pass.mk rule config).runNet net = .ok (report, next))
      (block : Block rule.name (config.strategyFor rule) (.ok (report, next)) events) :
      Leaves catalog config net key (some events)
        (some (PassSummary.ofReport report net.ops.length next.ops.length)) next
  | failed {rule : Rule} {e : Error} {events : List Event}
      (created : catalog.create key = .ok rule)
      (ran : (Pass.mk rule config).runNet net = .error e)
      (block : Block rule.name (config.strategyFor rule) (.error e) events) :
      Leaves catalog config net key (some events) none net

inductive Logs (catalog : Catalog) (config : Search.Config) :
    Net → List String → List (Option (List Event)) → List PassSummary → Net → Prop
  | none (net : Net) : Logs catalog config net [] [] [] net
  | call {net next last : Net} {key : String} {keys : List String} {part : Option (List Event)}
      {parts : List (Option (List Event))} {summary : Option PassSummary}
      {summaries : List PassSummary}
      (here : Leaves catalog config net key part summary next)
      (later : Logs catalog config next keys parts summaries last) :
      Logs catalog config net (key :: keys) (part :: parts) (summary.toList ++ summaries) last

def succeeds (block : List Event) : Bool :=
  block.getLast?.any fun
    | .passEnd _ _ _ success => success
    | _ => false

structure Shows (block : List Event) (summary : PassSummary) : Prop where
  start : block.head? = some (.passStart summary.rule summary.strategy)
  found : (block.map Event.kind).count "match-found" = summary.found
  applied : (block.map Event.kind).count "match-applied" = summary.applied
  skipped : (block.map Event.kind).count "match-skipped" = summary.skipped
  counts : block.getLast? = some (.passEnd summary.rule summary.applied summary.skipped true)

def inPasses (first : Nat) (blocks : List (List Event)) : List (Nat × Event) :=
  (blocks.zipIdx first).flatMap fun entry => entry.1.map (entry.2, ·)

def traced (s : Session) : List (Nat × Event) :=
  s.tracer.buffer.records.map fun r => (r.pass, r.event)

def Records (tracing : Config) (s t : Session) (blocks : List (List Event)) : Prop :=
  ∀ (passes now : Nat) (log : List Issue),
    s.tracer.Follows tracing ⟨true, passes, now⟩ log 0 →
      ∃ more, t.tracer.Follows tracing ⟨true, passes + blocks.length, now⟩ (log ++ more) 0 ∧
        (more.map fun i => (i.pass, i.event)) = inPasses (passes + 1) blocks

section
variable {found : List Match} {outcomes : List Apply.Outcome} {settled : List Event}

theorem settlesFrom (first : Nat) (same : outcomes.map Apply.Outcome.nodes = found.map Match.nodes) :
    List.Forall₂ Settles
      ((found.zipIdx first).map fun entry => .matchFound entry.2 entry.1.nodes)
      ((outcomes.zipIdx first).map fun entry => Tracer.outcomeEvent entry.2 entry.1) := by
  induction outcomes generalizing found first with
  | nil =>
    cases found with
    | nil => exact .nil
    | cons m rest => cases same
  | cons outcome later ih =>
    cases found with
    | nil => cases same
    | cons m rest =>
      obtain ⟨here, rest⟩ := List.cons.inj same
      refine .cons ?_ (ih (first + 1) rest)
      dsimp only
      rw [← here]
      cases outcome with
      | applied nodes => exact .applied first nodes
      | skipped nodes inactive => exact .skipped first nodes inactive

theorem readBack (outcomes : List Apply.Outcome) :
    (Tracer.outcomeEvents outcomes).map outcome? = outcomes.map some := by
  have here : ∀ i outcome, outcome? (Tracer.outcomeEvent i outcome) = some outcome := by
    intro i outcome
    cases outcome <;> rfl
  refine List.ext_getElem (by simp [Tracer.outcomeEvents]) fun i left right => ?_
  simp [Tracer.outcomeEvents, here]

theorem tellsFailure (e : Error) : Tells e (Tracer.failureEvent e) := by
  unfold Tracer.failureEvent
  split
  · rename_i cause
    exact .rewrite cause
  · rename_i cause other
    exact .other other

/-! A block shows what the summary of its pass says. -/

def kindOf (outcome : Apply.Outcome) : String :=
  if outcome.isApplied then "match-applied" else "match-skipped"

theorem kindsOfSettled (read : settled.map outcome? = outcomes.map some) :
    settled.map Event.kind = outcomes.map kindOf := by
  induction settled generalizing outcomes with
  | nil =>
    cases outcomes with
    | nil => rfl
    | cons outcome later => cases read
  | cons event rest ih =>
    cases outcomes with
    | nil => cases read
    | cons outcome later =>
      obtain ⟨here, read⟩ := List.cons.inj read
      refine List.cons_eq_cons.mpr ⟨?_, ih read⟩
      cases event <;> cases here <;> rfl

theorem countApplied (report : Apply.Report) :
    (report.outcomes.map kindOf).count "match-applied" = report.appliedCount := by
  rw [List.count, List.countP_map]
  refine List.countP_congr fun outcome _ => ?_
  cases outcome <;> simp [kindOf, Apply.Outcome.isApplied]

theorem countSkipped (report : Apply.Report) :
    (report.outcomes.map kindOf).count "match-skipped" = report.skippedCount := by
  have parts := List.length_eq_countP_add_countP Apply.Outcome.isApplied (l := report.outcomes)
  have skipped : (report.outcomes.map kindOf).count "match-skipped" =
      report.outcomes.countP fun outcome => ¬ outcome.isApplied := by
    rw [List.count, List.countP_map]
    refine List.countP_congr fun outcome _ => ?_
    cases outcome <;> simp [kindOf, Apply.Outcome.isApplied]
  rw [skipped, Apply.Report.skippedCount, Apply.Report.appliedCount]
  omega

theorem kindsOfFound (found : List Match) :
    (found.mapIdx fun index m => Event.matchFound index m.nodes).map Event.kind =
      List.replicate found.length "match-found" := by
  refine List.ext_getElem (by simp) fun i left right => ?_
  simp [Event.kind]

theorem countFoundSettled (outcomes : List Apply.Outcome) :
    (outcomes.map kindOf).count "match-found" = 0 := by
  refine List.count_eq_zero.mpr fun mem => ?_
  obtain ⟨outcome, _, same⟩ := List.mem_map.mp mem
  unfold kindOf at same
  split at same <;> simp at same

theorem Block.shows {rule : String} {strategy : Strategy} {report : PassReport} {next : Net}
    {events : List Event} (block : Block rule strategy (.ok (report, next)) events)
    (named : report.rule = rule) (ran : report.strategy = strategy) (before after : Nat) :
    Shows events (PassSummary.ofReport report before after) := by
  subst named ran
  cases block with
  | completed settles outcomes =>
    have kinds := kindsOfSettled outcomes
    exact {
      start := rfl
      found := by
        simp [kinds, kindsOfFound, countFoundSettled, Event.kind, PassSummary.ofReport]
      applied := by
        simp [kinds, kindsOfFound, countApplied, Event.kind, PassSummary.ofReport,
          List.count_replicate]
      skipped := by
        simp [kinds, kindsOfFound, countSkipped, Event.kind, PassSummary.ofReport,
          List.count_replicate]
      counts := List.getLast?_concat }

theorem Shows.success {block : List Event} {summary : PassSummary} (shows : Shows block summary) :
    succeeds block = true := by
  rw [succeeds, shows.counts]
  rfl

end

/-! What one call records, then many. -/

section
variable {tracing : Config} {s t u : Session} {one two : List (List Event)}

theorem inPassesAppend (first : Nat) (one two : List (List Event)) :
    inPasses first (one ++ two) = inPasses first one ++ inPasses (first + one.length) two := by
  simp [inPasses, List.zipIdx_append]

theorem Records.none (s : Session) : Records tracing s s [] := fun _ _ _ follows =>
  ⟨[], by simpa using follows, rfl⟩

theorem Records.append (first : Records tracing s t one) (last : Records tracing t u two) :
    Records tracing s u (one ++ two) := by
  intro passes now log follows
  obtain ⟨early, middle, listed⟩ := first passes now log follows
  obtain ⟨late, done, also⟩ := last _ now _ middle
  refine ⟨early ++ late, ?_, ?_⟩
  · rw [List.length_append, ← Nat.add_assoc, ← List.append_assoc]
    exact done
  · rw [List.map_append, listed, also, inPassesAppend, Nat.add_right_comm]

theorem recordsBlock (all : tracing.filter = []) {rule : String} {strategy : Strategy}
    {events : List Event}
    (kept : t.tracer = if s.tracer.config.enabled then
      (s.tracer.passStart rule strategy).recordAll events else s.tracer) :
    Records tracing s t [.passStart rule strategy :: events] := by
  intro passes now log follows
  have done := Tracer.reportFollows follows rule strategy events
  rw [← kept] at done
  have admitted : tracing.admits = fun _ => true := by
    funext event
    simp [Config.admits, all]
  refine ⟨_, done, ?_⟩
  simp [Tracer.Mode.recorded, admitted, inPasses]

theorem blockOfPass {pass : Pass} {net next : Net} {report : PassReport}
    (ran : pass.runNet net = .ok (report, next)) :
    Block report.rule report.strategy (.ok (report, next))
      (.passStart report.rule report.strategy :: Tracer.passEvents report) := by
  have settles := settlesFrom 0 (Pass.outcomesOfRun (Pass.reportOfNet ran))
  have found : Tracer.foundEvents report.found =
      report.found.mapIdx fun index m => .matchFound index m.nodes := by
    rw [List.mapIdx_eq_zipIdx_map]
    rfl
  unfold Tracer.passEvents
  rw [found]
  refine Block.completed ?_ (readBack report.apply.outcomes)
  rw [← found]
  exact settles

theorem applyLeaves (all : tracing.filter = []) (s : Session) (key : String) :
    ∃ part summary,
      Leaves s.catalog s.config s.net key part summary (s.apply key).1.net ∧
      (s.apply key).1.history = s.history ++ summary.toList ∧
      Records tracing s (s.apply key).1 part.toList := by
  unfold apply
  cases created : s.catalog.create key with
  | error e =>
    refine ⟨.none, .none, .unknown ?_, (List.append_nil _).symm, Records.none s⟩
    unfold Catalog.create at created
    cases found : s.catalog.find? key with
    | none => simp [Catalog.contains, found]
    | some rule => simp [found] at created
  | ok rule =>
    simp only [applyRule]
    cases ran : (s.pass rule).runNet s.net with
    | error e =>
      exact ⟨_, .none, .failed created ran (.failed (tellsFailure e)), (List.append_nil _).symm,
        recordsBlock all rfl⟩
    | ok written =>
      obtain ⟨report, next⟩ := written
      obtain ⟨_, _, _, _, _, rfl⟩ := Pass.phaseOfRun (Pass.reportOfNet ran)
      exact ⟨_, _, .completed created ran (blockOfPass ran), rfl, recordsBlock all rfl⟩

theorem calledLogs (all : tracing.filter = []) (s : Session) (keys : List String) :
    ∃ parts summaries,
      Logs s.catalog s.config s.net keys parts summaries (s.called (keys.map .apply)).net ∧
      (s.called (keys.map .apply)).history = s.history ++ summaries ∧
      ∀ k, Records tracing s (s.called ((keys.take k).map .apply))
        (parts.take k).reduceOption := by
  induction keys generalizing s with
  | nil =>
    refine ⟨[], [], .none s.net, (List.append_nil _).symm, fun k => ?_⟩
    rw [List.take_nil, List.take_nil]
    exact Records.none s
  | cons key keys ih =>
    obtain ⟨part, summary, leaves, history, here⟩ := applyLeaves all s key
    have same := applyFolds s key
    obtain ⟨parts, summaries, logs, histories, later⟩ := ih (s.apply key).1
    rw [same.catalog, same.config] at logs
    refine ⟨part :: parts, summary.toList ++ summaries, .call leaves logs, ?_, fun k => ?_⟩
    · rw [← List.append_assoc, ← history]
      exact histories
    · cases k with
      | zero => exact Records.none s
      | succ k =>
        have both := here.append (later k)
        cases part <;> exact both

theorem Logs.shows {catalog : Catalog} {config : Search.Config} {net last : Net}
    {keys : List String} {parts : List (Option (List Event))} {summaries : List PassSummary}
    (logs : Logs catalog config net keys parts summaries last) :
    List.Forall₂ Shows (parts.reduceOption.filter succeeds) summaries := by
  induction logs with
  | none net => exact .nil
  | call here later ih =>
    cases here with
    | unknown => exact ih
    | completed created ran block =>
      obtain ⟨_, _, _, _, _, rfl⟩ := Pass.phaseOfRun (Pass.reportOfNet ran)
      have shows := fun before after => block.shows rfl rfl before after
      rw [List.reduceOption_cons_of_some, List.filter_cons_of_pos (shows 0 0).success]
      exact .cons (shows _ _) ih
    | failed created ran block =>
      cases block with
      | failed tells => exact ih

theorem tracedOfFollows {passes now : Nat} {log : List Issue}
    (follows : s.tracer.Follows tracing ⟨true, passes, now⟩ log 0) :
    s.traced = Buffer.lastOf tracing.bufferSize (log.map fun i => (i.pass, i.event)) := by
  have seen : ((Trace.numbered log).map fun r => (r.pass, r.event)) =
      log.map fun i => (i.pass, i.event) := by
    refine List.ext_getElem (by simp) fun i left right => ?_
    simp [Trace.numbered]
  unfold traced
  rw [follows.buffer.records, List.drop_zero, ← seen]
  simp [Buffer.lastOf, List.map_drop]

end

theorem traceIsLog (net : Net) (catalog : Catalog) (config : Search.Config)
    (history : List PassSummary) (tracing : Config) (keys : List String) :
    let tracer := Tracer.ofConfig { tracing with enabled := true, filter := [] }
    let start : Session := { net, catalog, config, history, tracer }
    let s := start.called (keys.map .apply)
    ∃ parts summaries,
      Logs catalog config net keys parts summaries s.net ∧
      s.history = history ++ summaries ∧
      List.Forall₂ Shows (parts.reduceOption.filter succeeds) summaries ∧
      ∀ k,
        let sofar := (start.called ((keys.take k).map .apply)).traced
        let log := inPasses 1 (parts.take k).reduceOption
        sofar = Buffer.lastOf tracing.bufferSize log ∧
          (log.length ≤ tracing.bufferSize → sofar = log) := by
  intro tracer start s
  let unfiltered : Config := { tracing with enabled := true, filter := [] }
  have fresh := Tracer.startFollows unfiltered
  obtain ⟨parts, summaries, logs, histories, records⟩ :=
    calledLogs (rfl : unfiltered.filter = []) start keys
  refine ⟨parts, summaries, logs, histories, logs.shows, fun k => ?_⟩
  obtain ⟨more, follows, listed⟩ := records k 0 0 [] fresh
  have recent := tracedOfFollows follows
  rw [List.nil_append, listed] at recent
  exact ⟨recent, fun room => recent.trans (Buffer.lastOfAll room)⟩

end OpNet.Session
