import OpNet.Trace.Tracer
import Mathlib.Data.List.DropRight

/-!
The buffer of a tracer beside the whole history of its events. Main statement: whatever a tracer is
asked to do, its buffer holds the last of the events that were recorded since it was cleared, under
the passes in which they were issued and under numbers that count all records before them; and its
passes part the buffer into groups.
-/
namespace OpNet.Trace

structure Issue where
  pass : Nat
  timestamp : Nat
  event : Event
  deriving DecidableEq, Repr

def numbered (history : List Issue) : List Record :=
  history.mapIdx fun id i => { id, pass := i.pass, timestamp := i.timestamp, event := i.event }

theorem numberedConcat (history : List Issue) (i : Issue) : numbered (history ++ [i]) =
    numbered history ++
      [{ id := history.length, pass := i.pass, timestamp := i.timestamp, event := i.event }] :=
  List.mapIdx_concat

@[simp] theorem numberedLength (history : List Issue) :
    (numbered history).length = history.length :=
  List.length_mapIdx

theorem numberedIds (history : List Issue) :
    (numbered history).map Record.id = List.range history.length := by
  refine List.ext_getElem (by simp) fun i left right => ?_
  simp [numbered]

theorem numberedPasses (history : List Issue) :
    (numbered history).map Record.pass = history.map Issue.pass := by
  refine List.ext_getElem (by simp) fun i left right => ?_
  simp [numbered]

namespace Buffer

theorem lastOfAll {count : Nat} {xs : List α} (room : xs.length ≤ count) :
    lastOf count xs = xs := by
  simp [lastOf, Nat.sub_eq_zero_of_le room]

theorem lastOfAppend (count : Nat) (xs ys : List α) :
    lastOf count (lastOf count xs ++ ys) = lastOf count (xs ++ ys) := by
  simp only [lastOf, List.drop_append, List.drop_drop, List.length_append, List.length_drop]
  congr 2 <;> omega

structure Keeps (b : Buffer) (bound : Nat) (history : List Issue) (cleared : Nat) : Prop where
  size : b.maxSize = bound
  next : b.nextId = history.length
  records : b.records = lastOf bound ((numbered history).drop cleared)
  inside : cleared ≤ history.length

section
variable {b : Buffer} {bound cleared : Nat} {history : List Issue}

theorem Keeps.push (keeps : b.Keeps bound history cleared) (pass now : Nat) (event : Event) :
    (b.push pass now event).Keeps bound (history ++ [⟨pass, now, event⟩]) cleared where
  size := keeps.size
  next := by simp [Buffer.push, keeps.next]
  records := by
    have inside : cleared ≤ (numbered history).length := by simpa using keeps.inside
    simp only [Buffer.push, keeps.size, keeps.next, keeps.records]
    rw [lastOfAppend, numberedConcat, List.drop_append_of_le_length inside]
  inside := by
    have inside := keeps.inside
    simp only [List.length_append, List.length_singleton]
    omega

theorem Keeps.clear (keeps : b.Keeps bound history cleared) :
    b.clear.Keeps bound history history.length where
  size := keeps.size
  next := keeps.next
  records := by
    rw [List.drop_eq_nil_of_le (by simp)]
    simp [Buffer.clear, lastOf]
  inside := Nat.le_refl _

theorem Keeps.isEnd (keeps : b.Keeps bound history cleared) :
    b.records = (numbered history).drop (history.length - b.size) := by
  have size := congrArg List.length keeps.records
  rw [keeps.records, lastOf, List.drop_drop]
  simp only [lastOf, List.length_drop, numberedLength] at size ⊢
  rw [Buffer.size, size]
  have inside := keeps.inside
  congr 1
  omega

end

/-! Records in the order of their passes. -/

def Grouped (rs : List Record) : Prop := rs.Pairwise fun a b => a.pass ≤ b.pass

theorem passesHead (r : Record) (rest : List Record) :
    ∃ later, passesOf (r :: rest) = r.pass :: later := by
  induction rest generalizing r with
  | nil => exact ⟨[], rfl⟩
  | cons s rest ih =>
    rw [passesOf]
    split
    · rename_i same
      rw [same]
      exact ih s
    · exact ⟨_, rfl⟩

theorem memPasses {rs : List Record} {pass : Nat} :
    pass ∈ passesOf rs ↔ ∃ r ∈ rs, r.pass = pass := by
  induction rs using passesOf.induct with
  | case1 => simp [passesOf]
  | case2 r => simp [passesOf, eq_comm]
  | case3 r s rest same ih =>
    simp only [passesOf, if_pos same, ih, List.exists_mem_cons_iff]
    rw [same]
    exact or_self_left.symm
  | case4 r s rest other ih =>
    simp only [passesOf, if_neg other, List.mem_cons (a := pass), ih, List.exists_mem_cons_iff]
    exact or_congr_left eq_comm

theorem passesRise {rs : List Record} (grouped : Grouped rs) : (passesOf rs).Pairwise (· < ·) := by
  induction rs using passesOf.induct with
  | case1 => exact .nil
  | case2 r => exact List.pairwise_singleton _ _
  | case3 r s rest same ih =>
    rw [passesOf, if_pos same]
    exact ih (List.pairwise_cons.mp grouped).2
  | case4 r s rest other ih =>
    obtain ⟨least, later⟩ := List.pairwise_cons.mp grouped
    rw [passesOf, if_neg other]
    refine List.pairwise_cons.mpr ⟨fun pass mem => ?_, ih later⟩
    obtain ⟨t, there, rfl⟩ := memPasses.mp mem
    have first := least s List.mem_cons_self
    have after : s.pass ≤ t.pass := by
      rcases List.mem_cons.mp there with rfl | behind
      · exact Nat.le_refl _
      · exact (List.pairwise_cons.mp later).1 t behind
    omega

theorem passesPart {rs : List Record} (grouped : Grouped rs) :
    ((passesOf rs).flatMap fun pass => rs.filter fun r => r.pass = pass) = rs := by
  induction rs using passesOf.induct with
  | case1 => rfl
  | case2 r => simp [passesOf]
  | case3 r s rest same ih =>
    have later := (List.pairwise_cons.mp grouped).2
    obtain ⟨others, listed⟩ := passesHead s rest
    have rise := passesRise later
    rw [listed] at rise
    have apart : ∀ pass ∈ others, r.pass ≠ pass := fun pass mem equal =>
      Nat.ne_of_lt ((List.pairwise_cons.mp rise).1 pass mem) (same.symm.trans equal)
    have groups := ih later
    rw [passesOf, if_pos same]
    rw [listed, List.flatMap_cons] at groups ⊢
    rw [List.filter_cons_of_pos (by simpa using same), List.cons_append]
    refine congrArg (r :: ·) (Eq.trans ?_ groups)
    refine congrArg (_ ++ ·) (List.flatMap_congr fun pass mem => ?_)
    exact List.filter_cons_of_neg (by simpa using apart pass mem)
  | case4 r s rest other ih =>
    obtain ⟨least, later⟩ := List.pairwise_cons.mp grouped
    have beyond : ∀ t ∈ s :: rest, r.pass < t.pass := by
      have rise := passesRise grouped
      rw [passesOf, if_neg other] at rise
      exact fun t mem => (List.pairwise_cons.mp rise).1 t.pass (memPasses.mpr ⟨t, mem, rfl⟩)
    have alone : (s :: rest).filter (fun t => t.pass = r.pass) = [] :=
      List.filter_eq_nil_iff.mpr fun t mem => by simpa using Nat.ne_of_gt (beyond t mem)
    rw [passesOf, if_neg other, List.flatMap_cons, List.filter_cons_of_pos (by simp), alone]
    refine congrArg (r :: ·) (Eq.trans ?_ (ih later))
    refine List.flatMap_congr fun pass mem => ?_
    obtain ⟨t, there, rfl⟩ := memPasses.mp mem
    exact List.filter_cons_of_neg (by simpa using Nat.ne_of_lt (beyond t there))

end Buffer

namespace Tracer

inductive Call
  | enable
  | disable
  | clear
  | setJson (json : Bool)
  | setOutput (output : Output)
  | await (now : Nat)
  | record (event : Event)
  | passStart (rule : String) (strategy : Strategy)
  | recordPass (report : PassReport)
  | recordFailure (rule : String) (strategy : Strategy) (error : Error)
  deriving DecidableEq

def call (t : Tracer) : Call → Tracer
  | .enable => t.enable
  | .disable => t.disable
  | .clear => t.clear
  | .setJson json => t.setJson json
  | .setOutput output => t.setOutput output
  | .await now => { t with now }
  | .record event => t.record event
  | .passStart rule strategy => t.passStart rule strategy
  | .recordPass report => t.recordPass report
  | .recordFailure rule strategy error => t.recordFailure rule strategy error

def called (t : Tracer) (calls : List Call) : Tracer := calls.foldl call t

def Call.events : Call → List Event
  | .record event => [event]
  | .passStart rule strategy => [.passStart rule strategy]
  | .recordPass report => .passStart report.rule report.strategy :: passEvents report
  | .recordFailure rule strategy error => .passStart rule strategy :: failureEvents rule error
  | _ => []

def throughClear (calls : List Call) : List Call := calls.rdropWhile (· ≠ .clear)

structure Mode where
  enabled : Bool
  pass : Nat := 0
  now : Nat := 0

namespace Mode

/-- A pass that starts has a number of its own, also while tracing is off; the report of a pass
counts as a start only while it is on. -/
def next (mode : Mode) : Call → Mode
  | .enable => { mode with enabled := true }
  | .disable => { mode with enabled := false }
  | .await now => { mode with now }
  | .passStart .. => { mode with pass := mode.pass + 1 }
  | .recordPass _ | .recordFailure .. =>
    if mode.enabled then { mode with pass := mode.pass + 1 } else mode
  | _ => mode

def after (mode : Mode) (calls : List Call) : Mode := calls.foldl next mode

def recorded (mode : Mode) (config : Config) (events : List Event) : List Issue :=
  if mode.enabled then (events.filter config.admits).map (⟨mode.pass, mode.now, ·⟩) else []

def history (mode : Mode) (config : Config) : List Call → List Issue
  | [] => []
  | c :: later => (mode.next c).recorded config c.events ++ (mode.next c).history config later

end Mode

def mode (t : Tracer) : Mode := ⟨t.config.enabled, t.currentPass, t.now⟩

section
variable {t : Tracer} {config : Config} {mode : Mode} {history : List Issue} {cleared : Nat}

theorem recordedCons (mode : Mode) (config : Config) (event : Event) (events : List Event) :
    mode.recorded config (event :: events) =
      mode.recorded config [event] ++ mode.recorded config events := by
  unfold Mode.recorded
  cases mode.enabled <;> cases admitted : config.admits event <;> simp [admitted]

theorem recordedNone (mode : Mode) (config : Config) : mode.recorded config [] = [] := by
  simp [Mode.recorded]

theorem recordedOff (off : mode.enabled = false) (config : Config) (events : List Event) :
    mode.recorded config events = [] := by
  simp [Mode.recorded, off]

theorem historyConcat (mode : Mode) (config : Config) (calls : List Call) (c : Call) :
    mode.history config (calls ++ [c]) = mode.history config calls ++
      ((mode.after calls).next c).recorded config c.events := by
  induction calls generalizing mode with
  | nil => simp [Mode.history, Mode.after]
  | cons first later ih =>
    rw [List.cons_append, Mode.history, ih, Mode.history, List.append_assoc]
    rfl

structure Follows (t : Tracer) (config : Config) (mode : Mode) (history : List Issue)
    (cleared : Nat) : Prop where
  filter : t.config.filter = config.filter
  mode : t.mode = mode
  buffer : t.buffer.Keeps config.bufferSize history cleared

theorem echoFollows (follows : t.Follows config mode history cleared) :
    t.echo.Follows config mode history cleared := by
  unfold echo
  split
  · exact ⟨follows.filter, follows.mode, follows.buffer⟩
  · exact follows

theorem recordFollows (follows : t.Follows config mode history cleared) (event : Event) :
    (t.record event).Follows config mode (history ++ mode.recorded config [event]) cleared := by
  have admits : t.config.admits event = config.admits event := by
    simp [Config.admits, follows.filter]
  have enabled : t.config.enabled = mode.enabled := congrArg Mode.enabled follows.mode
  unfold record Mode.recorded
  rw [admits, enabled]
  by_cases on : mode.enabled = true
  · cases admitted : config.admits event with
    | true =>
      have pushed : Follows { t with buffer := t.buffer.push t.currentPass t.now event } config
          mode (history ++ [⟨mode.pass, mode.now, event⟩]) cleared := by
        refine ⟨follows.filter, follows.mode, ?_⟩
        rw [← follows.mode]
        exact follows.buffer.push _ _ event
      simpa [on, admitted] using echoFollows pushed
    | false => simpa [on, admitted] using follows
  · simpa [on] using follows

theorem recordAllFollows (follows : t.Follows config mode history cleared) (events : List Event) :
    (t.recordAll events).Follows config mode (history ++ mode.recorded config events) cleared := by
  induction events generalizing t history with
  | nil => simpa [recordAll, recordedNone] using follows
  | cons event later ih =>
    rw [recordedCons, ← List.append_assoc]
    exact ih (recordFollows follows event)

theorem passFollows (follows : t.Follows config mode history cleared) (rule : String)
    (strategy : Strategy) (events : List Event) :
    ((t.passStart rule strategy).recordAll events).Follows config
      { mode with pass := mode.pass + 1 }
      (history ++ Mode.recorded { mode with pass := mode.pass + 1 } config
        (.passStart rule strategy :: events)) cleared := by
  have opened : Follows { t with currentPass := t.currentPass + 1 } config
      { mode with pass := mode.pass + 1 } history cleared :=
    ⟨follows.filter, by rw [← follows.mode]; rfl, follows.buffer⟩
  exact recordAllFollows opened (.passStart rule strategy :: events)

theorem reportFollows (follows : t.Follows config mode history cleared) (rule : String)
    (strategy : Strategy) (events : List Event) :
    let next := if mode.enabled then { mode with pass := mode.pass + 1 } else mode
    (if t.config.enabled then (t.passStart rule strategy).recordAll events else t).Follows config
      next (history ++ next.recorded config (.passStart rule strategy :: events)) cleared := by
  intro next
  have enabled : t.config.enabled = mode.enabled := congrArg Mode.enabled follows.mode
  rw [enabled]
  cases on : mode.enabled with
  | true => simpa [next, on] using passFollows follows rule strategy events
  | false => simpa [next, on, recordedOff on] using follows

theorem callFollows (follows : t.Follows config mode history cleared) (c : Call) :
    (t.call c).Follows config (mode.next c)
      (history ++ (mode.next c).recorded config c.events)
      (if c = .clear then history.length else cleared) := by
  have quiet {u : Tracer} {next : Mode} {gone : Nat} (kept : u.Follows config next history gone) :
      u.Follows config next (history ++ next.recorded config []) gone := by
    rwa [recordedNone, List.append_nil]
  obtain ⟨filter, rfl, buffer⟩ := id follows
  cases c with
  | enable | disable | setJson | setOutput | await => exact quiet ⟨filter, rfl, buffer⟩
  | clear => exact quiet ⟨filter, rfl, buffer.clear⟩
  | record event => exact recordFollows follows event
  | passStart rule strategy => exact passFollows follows rule strategy []
  | recordPass report => exact reportFollows follows report.rule report.strategy (passEvents report)
  | recordFailure rule strategy error =>
    exact reportFollows follows rule strategy (failureEvents rule error)

theorem startFollows (config : Config) :
    (ofConfig config).Follows config (ofConfig config).mode [] 0 where
  filter := rfl
  mode := rfl
  buffer := ⟨rfl, rfl, by simp [ofConfig, numbered, Buffer.lastOf], Nat.le_refl 0⟩

theorem calledFollows (config : Config) (calls : List Call) :
    let start := (ofConfig config).mode
    ((ofConfig config).called calls).Follows config (start.after calls)
      (start.history config calls) (start.history config (throughClear calls)).length := by
  intro start
  induction calls using List.reverseRecOn with
  | nil => exact startFollows config
  | append_singleton calls c ih =>
    have step := callFollows ih c
    rw [called, List.foldl_append, Mode.after, List.foldl_append, historyConcat]
    have cleared : (start.history config (throughClear (calls ++ [c]))).length =
        if c = .clear then (start.history config calls).length
        else (start.history config (throughClear calls)).length := by
      rw [throughClear, List.rdropWhile_concat]
      by_cases clears : c = .clear
      · subst clears
        simp [historyConcat, Call.events, recordedNone]
      · simp [clears, throughClear]
    rw [cleared]
    exact step

/-! No call takes a pass number back. -/

theorem passNext (mode : Mode) (c : Call) : mode.pass ≤ (mode.next c).pass := by
  cases c with
  | passStart rule strategy => exact Nat.le_succ _
  | recordPass report =>
    simp only [Mode.next]
    split
    · exact Nat.le_succ _
    · exact Nat.le_refl _
  | recordFailure rule strategy error =>
    simp only [Mode.next]
    split
    · exact Nat.le_succ _
    · exact Nat.le_refl _
  | _ => exact Nat.le_refl _

theorem historyRises (mode : Mode) (config : Config) (calls : List Call) :
    (∀ i ∈ mode.history config calls, mode.pass ≤ i.pass) ∧
      (mode.history config calls).Pairwise fun a b => a.pass ≤ b.pass := by
  induction calls generalizing mode with
  | nil => simp [Mode.history]
  | cons c later ih =>
    obtain ⟨least, rises⟩ := ih (mode.next c)
    have here : ∀ i ∈ (mode.next c).recorded config c.events, i.pass = (mode.next c).pass := by
      intro i mem
      unfold Mode.recorded at mem
      split at mem
      · obtain ⟨event, _, rfl⟩ := List.mem_map.mp mem
        rfl
      · cases mem
    have up := passNext mode c
    rw [Mode.history]
    constructor
    · intro i mem
      rcases List.mem_append.mp mem with now | after
      · exact here i now ▸ up
      · exact Nat.le_trans up (least i after)
    · refine List.pairwise_append.mpr ⟨?_, rises, fun a now b after => ?_⟩
      · exact List.pairwise_of_forall_mem_list fun a left b right => by
          rw [here a left, here b right]
      · exact here a now ▸ least b after

end

theorem keepsRecentHistory (config : Config) (calls : List Call) :
    let start : Mode := { enabled := config.enabled }
    let t := (ofConfig config).called calls
    let history := start.history config calls
    let cleared := (start.history config (throughClear calls)).length
    t.buffer.records = Buffer.lastOf config.bufferSize ((numbered history).drop cleared) ∧
      t.buffer.nextId = history.length ∧
      t.buffer.records.map Record.id =
        List.range' (history.length - t.buffer.size) t.buffer.size ∧
      t.mode = start.after calls ∧
      (t.buffer.records.Pairwise fun a b => a.pass ≤ b.pass) ∧
      t.buffer.passes.Pairwise (· < ·) ∧
      t.buffer.passes.flatMap t.buffer.forPass = t.buffer.records := by
  intro start t history cleared
  have follows : t.Follows config (start.after calls) history cleared := calledFollows config calls
  have isEnd := follows.buffer.isEnd
  have grouped : Buffer.Grouped t.buffer.records := by
    have whole : Buffer.Grouped (numbered history) := by
      refine List.pairwise_map.mp ?_
      rw [numberedPasses]
      exact List.pairwise_map.mpr (historyRises start config calls).2
    rw [isEnd]
    exact whole.sublist (List.drop_sublist _ _)
  refine ⟨follows.buffer.records, follows.buffer.next, ?_, follows.mode, grouped,
    Buffer.passesRise grouped, Buffer.passesPart grouped⟩
  have few : t.buffer.size ≤ history.length := by
    have size := congrArg List.length isEnd
    simp only [List.length_drop, numberedLength] at size
    unfold Buffer.size at *
    omega
  rw [isEnd, List.map_drop, numberedIds, List.range_eq_range', List.drop_range']
  congr 1 <;> omega

end Tracer

end OpNet.Trace
