import OpNet.Command.Run
import OpNet.Proofs.NetSize
import OpNet.Proofs.SessionRun
import OpNet.Proofs.StoredFiles

/-!
Runs of the command line. Main statement: a run that is not asked for information succeeds exactly
when its arguments can be read, its input can be loaded and every pass succeeds; it writes one
file, once all of this is certain, and it shows the summary of every pass that was completed.
-/
namespace OpNet.Command

def Options.config (o : Options) : Search.Config where
  strategy := o.strategy
  maxExpansions := o.maxExpansions

def Asks (args : List String) : Prop :=
  ∃ o, parseArgs args = .ok o ∧ (o.help || o.version || o.list) = true

structure Loads (store : Store) (args : List String) (o : Options) (net : Net) : Prop where
  parsed : parseArgs args = .ok o
  loaded : ∃ input, o.input = some input ∧ store.load input = .ok net

/-- How far the rules take a net: through all of them, or up to the first that fails. Every pass
that is completed has its summary. -/
inductive Reaches (config : Search.Config) :
    Net → List String → List PassSummary → Except Error Net → Prop
  | done (net : Net) : Reaches config net [] [] (.ok net)
  | failed {net : Net} {key : String} {e : Error}
      (fails : Session.passUnder .builtins config net key = .error e) (untried : List String) :
      Reaches config net (key :: untried) [] (.error e)
  | pass {net next : Net} {key : String} {rule : Rule} {report : PassReport} {keys : List String}
      {summaries : List PassSummary} {result : Except Error Net}
      (known : Catalog.builtins.create key = .ok rule)
      (ran : ({ rule, config } : Pass).runNet net = .ok (report, next))
      (rest : Reaches config next keys summaries result) :
      Reaches config net (key :: keys)
        (.ofReport report net.ops.length next.ops.length :: summaries) result

theorem Reaches.fold {config : Search.Config} {net : Net} {keys : List String}
    {summaries : List PassSummary} {result : Except Error Net}
    (reaches : Reaches config net keys summaries result) :
    keys.foldlM (Session.passUnder .builtins config) net = result := by
  induction reaches with
  | done net => rfl
  | failed fails untried =>
    rw [List.foldlM_cons, fails]
    rfl
  | pass known ran rest ih =>
    rw [List.foldlM_cons, Session.passUnderCreated known, ran]
    exact ih

def outcome (run : Session × List PassSummary × Option Error) : Except Error Net :=
  match run.2.2 with
  | none => .ok run.1.net
  | some e => .error e

theorem applyRulesReaches {s : Session} (builtin : s.catalog = .builtins) (keys : List String) :
    Reaches s.config s.net keys (applyRules s keys).2.1 (outcome (applyRules s keys)) := by
  induction keys generalizing s with
  | nil => exact .done s.net
  | cons key keys ih =>
    cases called : s.apply key with
    | mk t answer =>
      simp only [applyRules, called]
      cases answer with
      | error e =>
        have fails := (Session.refusedOfApply called).2
        rw [builtin] at fails
        exact .failed fails keys
      | ok summary =>
        have same := Session.passedOfApply called
        obtain ⟨rule, report, net, known, ran, rfl, rfl⟩ := Session.completedOfApply called
        rw [builtin] at known
        have rest := ih (same.catalog.trans builtin)
        rw [same.config] at rest
        exact .pass known ran rest

structure Succeeds (store : Store) (args : List String) (o : Options) (net final : Net) : Prop
    extends Loads store args o net where
  passed : o.rules.foldlM (Session.passUnder .builtins o.config) net = .ok final

section
variable {store after : Store} {args : List String} {o : Options} {net final : Net}
  {input path : String} {e : Error}

theorem runAsked (store : Store) (parsed : parseArgs args = .ok o)
    (asks : (o.help || o.version || o.list) = true) :
    (runOn store args).1.fault = none ∧ (runOn store args).2 = store := by
  unfold runOn run
  simp only [parsed, execute]
  split
  · exact ⟨rfl, rfl⟩
  split
  · exact ⟨rfl, rfl⟩
  split
  · exact ⟨rfl, rfl⟩
  · simp_all

theorem runTransforms (parsed : parseArgs args = .ok o)
    (silent : (o.help || o.version || o.list) = false) (given : o.input = some input) :
    runOn store args = (transform storeFiles o input).run store := by
  simp only [Bool.or_eq_false_iff] at silent
  simp only [runOn, run, parsed, execute, silent, given, Bool.false_eq_true, if_false]

theorem transformUnloaded (o : Options) (unloaded : store.load input = .error e) :
    (transform storeFiles o input).run store = ({ fault := some (.failed e) }, store) := by
  have read : (store.read input).bind Pack.decode = .error e := unloaded
  simp only [transform, storeFiles, StateT.run, bind, StateT.bind, read]
  rfl

inductive Ends (store : Store) (o : Options) (out : List String) :
    Except Error Net → Report × Store → Prop
  | failed (e : Error) (err : List String) :
      Ends store o out (.error e) ({ out, err, fault := some (.failed e) }, store)
  | unsaved (final : Net) (err : List String) (unasked : o.output = none) :
      Ends store o out (.ok final) ({ out, err }, store)
  | saved {final : Net} {path : String} {after : Store} (err : List String)
      (asked : o.output = some path) (written : store.write path (Pack.encode final) = .ok after) :
      Ends store o out (.ok final) ({ out := out ++ ["Wrote " ++ path], err }, after)
  | refused {final : Net} {path : String} {e : Error} (err : List String)
      (asked : o.output = some path) (refused : store.write path (Pack.encode final) = .error e) :
      Ends store o out (.ok final) ({ out, err, fault := some (.failed e) }, store)

theorem transformLoaded (o : Options) (loaded : store.load input = .ok net) :
    ∃ summaries result, Reaches o.config net o.rules summaries result ∧
      Ends store o (netLine net :: summaries.map summaryLine) result
        ((transform storeFiles o input).run store) := by
  have read : (store.read input).bind Pack.decode = .ok net := loaded
  have reaches := applyRulesReaches (s := session o net) rfl o.rules
  refine ⟨_, _, reaches, ?_⟩
  simp only [transform, storeFiles, StateT.run, bind, StateT.bind, read, outcome]
  generalize applyRules (session o net) o.rules = run
  obtain ⟨s, summaries, failure⟩ := run
  cases failure with
  | some e => cases o.output <;> exact .failed e _
  | none =>
    cases asked : o.output with
    | none => exact .unsaved s.net _ asked
    | some path =>
      simp only [StateT.bind]
      cases written : store.write path (Pack.encode s.net) with
      | ok after => exact .saved _ asked written
      | error e => exact .refused _ asked written

theorem runLoaded (silent : ¬ Asks args) (loads : Loads store args o net) :
    ∃ summaries result, Reaches o.config net o.rules summaries result ∧
      Ends store o (netLine net :: summaries.map summaryLine) result (runOn store args) := by
  obtain ⟨parsed, input, given, loaded⟩ := loads
  have quiet : (o.help || o.version || o.list) = false :=
    Bool.eq_false_iff.mpr fun asks => silent ⟨o, parsed, asks⟩
  rw [runTransforms parsed quiet given]
  exact transformLoaded o loaded

theorem runUnloaded (silent : ¬ Asks args) (unloaded : ∀ o net, ¬ Loads store args o net) :
    ∃ fault, runOn store args = ({ fault := some fault }, store) := by
  cases parsed : parseArgs args with
  | error fault => exact ⟨fault, by simp only [runOn, run, parsed]; rfl⟩
  | ok o =>
    have quiet : (o.help || o.version || o.list) = false :=
      Bool.eq_false_iff.mpr fun asks => silent ⟨o, parsed, asks⟩
    cases given : o.input with
    | none =>
      simp only [Bool.or_eq_false_iff] at quiet
      refine ⟨.missingInput, ?_⟩
      simp only [runOn, run, parsed, execute, quiet, given, Bool.false_eq_true, if_false]
      rfl
    | some input =>
      cases loaded : store.load input with
      | ok net => exact absurd ⟨parsed, input, given, loaded⟩ (unloaded o net)
      | error e =>
        rw [runTransforms parsed quiet given, transformUnloaded o loaded]
        exact ⟨.failed e, rfl⟩

theorem Loads.unique {o' : Options} {net' : Net} (one : Loads store args o net)
    (two : Loads store args o' net') : o' = o ∧ net' = net := by
  obtain ⟨parsed, input, given, loaded⟩ := one
  obtain ⟨parsed', input', given', loaded'⟩ := two
  cases parsed.symm.trans parsed'
  cases given.symm.trans given'
  cases loaded.symm.trans loaded'
  exact ⟨rfl, rfl⟩

theorem codeIff {report : Report} : report.code = 0 ↔ report.fault = none := by
  unfold Report.code
  cases report.fault <;> simp

def wroteLines (o : Options) : Except Error Net → List String
  | .ok _ => (o.output.map fun path => "Wrote " ++ path).toList
  | .error _ => []

theorem Ends.shown {out : List String} {result : Except Error Net} {run : Report × Store}
    (ends : Ends store o out result run)
    (writable : ∀ path, o.output = some path →
      ∀ bytes, ∃ after, store.write path bytes = .ok after) :
    (run.1.code = 0 ↔ ∃ final, result = .ok final) ∧ (run.1.code ≠ 0 → run.2 = store) ∧
      (∀ final, result = .ok final → (o.output = none → run.2 = store) ∧
        ∀ path, o.output = some path → store.write path (Pack.encode final) = .ok run.2) ∧
      run.1.out = out ++ wroteLines o result := by
  simp only [codeIff, ne_eq]
  cases ends with
  | failed e err => simp [wroteLines]
  | unsaved final err unasked => simp [wroteLines, unasked]
  | saved err asked written => simp_all [wroteLines]
  | refused err asked refused =>
    obtain ⟨after, written⟩ := writable _ asked _
    rw [refused] at written
    cases written

theorem loadedBack (written : store.Written path (Pack.encode net) after)
    (writable : net.Writable) : after.load path = .ok net := by
  have back := (Pack.netBack writable).whole []
  rw [List.append_nil] at back
  simp only [Store.load, written.read, bind, Except.bind, Pack.decode, back]

end

/-! Whatever the rules make of a small file can be written. -/

theorem builtinRule {key : String} {rule : Rule} (known : Catalog.builtins.create key = .ok rule) :
    ∃ f ∈ Catalog.fusions, rule = f.rule := by
  have entries : Catalog.builtins.entries = Catalog.fusions.map fun f => (f.name, f.rule) :=
    Ascending.ofPairsSorted (by unfold Ascending.Sorted; decide)
  unfold Catalog.create Catalog.find? at known
  rw [entries] at known
  split at known
  · rename_i found
    cases known
    obtain ⟨front, rest, split, _⟩ := List.lookup_eq_some_iff.mp found
    have mem : (key, rule) ∈ Catalog.fusions.map fun f => (f.name, f.rule) := by
      rw [split]
      exact List.mem_append_right _ List.mem_cons_self
    obtain ⟨f, listed, same⟩ := List.mem_map.mp mem
    cases same
    exact ⟨f, listed, rfl⟩
  · cases known

theorem passUnderFits {config : Search.Config} {net out : Net} {key : String} {n : Nat}
    (fits : net.Fits n) (passed : Session.passUnder .builtins config net key = .ok out) :
    out.Fits n := by
  obtain ⟨rule, known, ok⟩ := bindOk.mp passed
  obtain ⟨f, listed, rfl⟩ := builtinRule known
  have shorter : ∀ f ∈ Catalog.fusions,
      f.fused.utf8ByteSize ≤ (f.pattern.map String.utf8ByteSize).sum := by decide
  exact Fusion.passFits (shorter f listed) fits ok

def SmallInput (store : Store) (o : Options) : Prop :=
  ∀ input bytes, o.input = some input → store.read input = .ok bytes → bytes.length < 2 ^ 32

theorem Succeeds.writable {store : Store} {args : List String} {o : Options} {net final : Net}
    (succeeds : Succeeds store args o net final) (small : SmallInput store o) :
    final.Writable := by
  obtain ⟨input, given, loaded⟩ := succeeds.loaded
  obtain ⟨bytes, read, decoded⟩ := bindOk.mp loaded
  let good (reached : Net) : Prop := reached.Fits bytes.length
  have fits : good final :=
    Search.foldlMKeeps succeeds.passed (Pack.decodedFits decoded) fun _ _ _ _ known passed =>
      passUnderFits known passed
  exact fits.writable (small input bytes given read)

theorem writesOnlyOnSuccess (store : Store) (args : List String)
    (writable : ∀ o path, parseArgs args = .ok o → o.output = some path →
      ∀ bytes, ∃ after, store.write path bytes = .ok after) :
    let report := (runOn store args).1
    let after := (runOn store args).2
    (Asks args → report.code = 0 ∧ after = store) ∧
    (¬ Asks args →
      (report.code = 0 ↔ ∃ o net final, Succeeds store args o net final) ∧
      (report.code ≠ 0 → after = store) ∧
      (∀ o net final, Succeeds store args o net final →
        (o.output = none → after = store) ∧
        ∀ path, o.output = some path → store.Written path (Pack.encode final) after ∧
          (final.Writable ∨ SmallInput store o → after.load path = .ok final)) ∧
      (∀ o net, Loads store args o net → ∃ summaries result,
        Reaches o.config net o.rules summaries result ∧
        report.out = netLine net :: summaries.map summaryLine ++ wroteLines o result) ∧
      ((∀ o net, ¬ Loads store args o net) → report.out = [])) := by
  intro report after
  refine ⟨fun ⟨o, parsed, asks⟩ => ?_, fun silent => ?_⟩
  · obtain ⟨fine, same⟩ := runAsked store parsed asks
    exact ⟨codeIff.mpr fine, same⟩
  by_cases loads : ∃ o net, Loads store args o net
  · obtain ⟨o, net, loads⟩ := loads
    obtain ⟨summaries, result, reaches, ends⟩ := runLoaded silent loads
    obtain ⟨code, kept, saved, out⟩ := ends.shown fun path => writable o path loads.parsed
    have fold := reaches.fold
    refine ⟨code.trans ⟨?_, ?_⟩, kept, ?_, ?_, fun unloaded => absurd loads (unloaded o net)⟩
    · intro ⟨final, done⟩
      exact ⟨o, net, final, loads, fold.trans done⟩
    · intro ⟨o', net', final, others, passed⟩
      obtain ⟨rfl, rfl⟩ := loads.unique others
      exact ⟨final, fold.symm.trans passed⟩
    · intro o' net' final succeeds
      obtain ⟨rfl, rfl⟩ := loads.unique succeeds.toLoads
      obtain ⟨unasked, asked⟩ := saved final (fold.symm.trans succeeds.passed)
      refine ⟨unasked, fun path given => ?_⟩
      have written := Store.written (asked path given)
      exact ⟨written, fun fits => loadedBack written (fits.elim id succeeds.writable)⟩
    · intro o' net' others
      obtain ⟨rfl, rfl⟩ := loads.unique others
      exact ⟨summaries, result, reaches, out⟩
  · obtain ⟨fault, run⟩ := runUnloaded silent fun o net this => loads ⟨o, net, this⟩
    have failed : report.code ≠ 0 := by
      simp [report, run, Report.code]
    have same : after = store := congrArg Prod.snd run
    refine ⟨⟨fun done => absurd done failed, fun ⟨o, net, _, succeeds⟩ => ?_⟩, fun _ => same,
      fun o net _ succeeds => ?_, fun o net others => absurd ⟨o, net, others⟩ loads, fun _ => ?_⟩
    · exact absurd ⟨o, net, succeeds.toLoads⟩ loads
    · exact absurd ⟨o, net, succeeds.toLoads⟩ loads
    · simp only [report, run]

def convThenRelu : Net where
  ops :=
    [{ kind := "Conv", inputs := ["X"], outputs := ["C"] },
     { kind := "Relu", inputs := ["C"], outputs := ["R"] }]
  externalOutputs := ["R"]

def justConvRelu : Net where
  ops := [{ kind := "ConvRelu", inputs := ["X"], outputs := ["R"] }]
  externalOutputs := ["R"]

def stored : Store where
  entries := [(["net"], .file (Pack.encode convThenRelu))]

def fusing : List String := ["-t", "fuse_conv_relu", "net", "-o", "out"]

theorem storedName {name : String} (known : name = "net" ∨ name = "out") :
    stored.resolve name = .ok [name] := by
  have single : name.splitOn "/" = [name] := by
    unfold String.splitOn
    rcases known with rfl | rfl
    all_goals
      rw [if_neg (by decide)]
      repeat rw [String.splitOnAux, if_neg (by decide +kernel), if_neg (by decide +kernel)]
      rw [String.splitOnAux, if_pos (by decide +kernel)]
      decide +kernel
  rw [Store.resolve, Store.names, String.contains_char_eq, single]
  rcases known with rfl | rfl <;> decide +kernel

theorem fusingWritesFused :
    (∀ o path, parseArgs fusing = .ok o → o.output = some path →
      ∀ bytes, ∃ after, stored.write path bytes = .ok after) ∧
    (runOn stored fusing).1.code = 0 ∧
      stored.Written "out" (Pack.encode justConvRelu) (runOn stored fusing).2 ∧
      (runOn stored fusing).2.load "out" = .ok justConvRelu := by
  have parsed : parseArgs fusing =
      .ok { input := some "net", output := some "out", rules := ["fuse_conv_relu"] } := by
    decide +kernel
  have target := storedName (Or.inr rfl : "out" = "net" ∨ "out" = "out")
  have source := storedName (Or.inl rfl : "net" = "net" ∨ "net" = "out")
  have writable : ∀ o path, parseArgs fusing = .ok o → o.output = some path →
      ∀ bytes, ∃ after, stored.write path bytes = .ok after := by
    intro o path known given bytes
    cases parsed.symm.trans known
    cases given
    refine ⟨stored.put ["out"] (.file bytes), ?_⟩
    simp only [Store.write, target]
    rfl
  have silent : ¬ Asks fusing := by
    rintro ⟨o, known, asks⟩
    cases parsed.symm.trans known
    cases asks
  have read : stored.read "net" = .ok (Pack.encode convThenRelu) := by
    simp only [Store.read, source]
    decide +kernel
  have loaded : stored.load "net" = .ok convThenRelu := by
    simp only [Store.load, read]
    decide +kernel
  obtain ⟨code, _, saved, _⟩ := (writesOnlyOnSuccess stored fusing writable).2 silent
  have succeeds : Succeeds stored fusing _ convThenRelu justConvRelu :=
    ⟨⟨parsed, "net", rfl, loaded⟩, by decide +kernel⟩
  obtain ⟨written, back⟩ := (saved _ _ _ succeeds).2 "out" rfl
  refine ⟨writable, code.mpr ⟨_, _, _, succeeds⟩, written, back (.inr ?_)⟩
  intro input bytes given known
  cases given
  cases read.symm.trans known
  decide +kernel

end OpNet.Command
