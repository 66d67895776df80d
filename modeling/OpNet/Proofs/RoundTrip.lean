import OpNet.Proofs.SelfDelimiting
import Mathlib.Data.List.Nodup

/-!
Writing a net and reading it back. A record is read back if its entries name fields, none of them
twice, and each value is read back by the reader of its field. Main statement: the written form of a
net is read as that net, whatever follows it, and nothing shorter is read as any net.
-/
namespace OpNet

structure Operator.Writable (op : Operator) : Prop where
  kind : Pack.Short op.kind
  name : Pack.Short op.name
  inputCount : op.inputs.length < 2 ^ 32
  inputs : ∀ blob ∈ op.inputs, Pack.Short blob
  outputCount : op.outputs.length < 2 ^ 32
  outputs : ∀ blob ∈ op.outputs, Pack.Short blob
  argCount : op.args.length < 2 ^ 32
  args : ∀ entry ∈ op.args, Pack.Short entry.1 ∧ Pack.Short entry.2
  ascending : Ascending.Sorted (op.args.map Prod.fst)

/-- No length in the net is too great to be written, and the arguments of every operator are a
map. -/
structure Net.Writable (net : Net) : Prop where
  name : Pack.Short net.name
  opCount : net.ops.length < 2 ^ 32
  ops : ∀ op ∈ net.ops, op.Writable
  inputCount : net.externalInputs.length < 2 ^ 32
  inputs : ∀ blob ∈ net.externalInputs, Pack.Short blob
  outputCount : net.externalOutputs.length < 2 ^ 32
  outputs : ∀ blob ∈ net.externalOutputs, Pack.Short blob

namespace Pack

namespace Layout
variable {σ : Type} {layout : Layout σ} {fields next last : σ} {i : Nat} {name : String}
  {bytes : Bytes} {entries : List (Bytes × Bytes)}

structure Named (layout : Layout σ) : Prop where
  distinct : layout.names.Nodup
  short : ∀ name ∈ layout.names, Short name

theorem namedField (distinct : layout.names.Nodup) (known : layout.names[i]? = some name) :
    layout.field? (.text (utf8 name)) = .ok (some i) := by
  obtain ⟨inside, rfl⟩ := List.getElem?_eq_some_iff.mp known
  refine congrArg Except.ok (List.findIdx?_eq_some_iff_getElem.mpr ⟨inside, by simp, ?_⟩)
  intro j less same
  have equal : layout.names[j] = layout.names[i] := utf8Injective (by simpa using same)
  exact absurd (distinct.getElem_inj_iff.mp equal) (Nat.ne_of_lt less)

theorem readEntryBack (depth : Nat) (named : layout.Named)
    (known : layout.names[i]? = some name) (fresh : layout.has fields i = false)
    (value : ReadsBack (layout.read fields i) bytes next) :
    ReadsBack (layout.readEntry depth fields) (text name ++ bytes) next := by
  have key := textToken (named.short name (List.mem_of_getElem? known))
  exact key.chain value (fun _ => rfl) fun _ => by
    simp only [bind, Except.bind, namedField named.distinct known, fresh, Bool.false_eq_true, if_false]

inductive Fills (layout : Layout σ) : σ → List (Bytes × Bytes) → σ → Prop where
  | nil {fields : σ} : Fills layout fields [] fields
  | cons {fields next last : σ} {i : Nat} {name : String} {bytes : Bytes}
      {entries : List (Bytes × Bytes)} (known : layout.names[i]? = some name)
      (fresh : layout.has fields i = false)
      (value : ReadsBack (layout.read fields i) bytes next) (rest : Fills layout next entries last) :
      Fills layout fields ((text name, bytes) :: entries) last

theorem readEntriesBack (depth : Nat) (named : layout.Named)
    (fills : layout.Fills fields entries last) :
    ReadsBack (layout.readEntries depth entries.length fields)
      (entries.flatMap fun entry => entry.1 ++ entry.2) last := by
  induction fills with
  | nil => exact ReadsBack.done _
  | cons known fresh value rest ih =>
    exact (readEntryBack depth named known fresh value).chain ih (fun _ => rfl) (fun _ => rfl)

theorem readRecordBack (depth : Nat) (named : layout.Named) (short : entries.length < 2 ^ 32)
    (fills : layout.Fills fields entries last) :
    ReadsBack (layout.readRecord depth fields) (map entries) last :=
  (mapHeadBack short).chain (readEntriesBack depth named fills) (fun _ => rfl) (fun _ => rfl)

end Layout

theorem operatorBack {op : Operator} (writable : op.Writable) :
    ReadsBack readOperator (operator op) op := by
  have named : OperatorFields.layout.Named := ⟨by decide, by decide⟩
  have kind := (textBack writable.kind).as fun kind => ({ kind } : OperatorFields)
  have name := (textBack writable.name).as fun name =>
    ({ kind := op.kind, name } : OperatorFields)
  have inputs := (textsBack writable.inputCount writable.inputs).as fun inputs =>
    ({ kind := op.kind, name := op.name, inputs } : OperatorFields)
  have outputs := (textsBack writable.outputCount writable.outputs).as fun outputs =>
    ({ kind := op.kind, name := op.name, inputs := op.inputs, outputs } : OperatorFields)
  have args := (argsBack writable.argCount writable.args writable.ascending).as fun args =>
    ({ kind := op.kind, name := op.name, inputs := op.inputs, outputs := op.outputs,
       args } : OperatorFields)
  have fills : OperatorFields.layout.Fills {} _ _ :=
    .cons (i := 0) rfl rfl kind <| .cons (i := 1) rfl rfl name <| .cons (i := 2) rfl rfl inputs <|
      .cons (i := 3) rfl rfl outputs <| .cons (i := 4) rfl rfl args .nil
  have record := Layout.readRecordBack (maxDepth - 3) named (by simp) fills
  exact record.finish (fun _ => rfl) (fun _ => rfl)

theorem netBack {net : Net} (writable : net.Writable) : ReadsBack readNet (encode net) net := by
  have named : NetFields.layout.Named := ⟨by decide, by decide⟩
  have name := (textBack writable.name).as fun name => ({ name } : NetFields)
  have ops := (arrayBack writable.opCount fun op mem => operatorBack (writable.ops op mem)).as
    fun ops => ({ name := net.name, ops } : NetFields)
  have inputs := (textsBack writable.inputCount writable.inputs).as fun externalInputs =>
    ({ name := net.name, ops := net.ops, externalInputs } : NetFields)
  have outputs := (textsBack writable.outputCount writable.outputs).as fun externalOutputs =>
    ({ name := net.name, ops := net.ops, externalInputs := net.externalInputs,
       externalOutputs } : NetFields)
  have fills : NetFields.layout.Fills {} _ _ :=
    .cons (i := 0) rfl rfl name <| .cons (i := 1) rfl rfl ops <| .cons (i := 2) rfl rfl inputs <|
      .cons (i := 3) rfl rfl outputs .nil
  have record := Layout.readRecordBack (maxDepth - 1) named (by simp) fills
  exact record.finish (fun _ => rfl) (fun _ => rfl)

theorem decodeEncode (net : Net) (writable : net.Writable) :
    (∀ rest, decode (encode net ++ rest) = .ok net) ∧
      ∀ front, front <+: encode net → front ≠ encode net →
        ∃ text, decode front = .error (Cause.serialization text) := by
  have back := netBack writable
  constructor
  · intro rest
    unfold decode
    rw [back.whole]
  · intro front inside other
    unfold decode
    rw [back.cut front inside other]
    exact ⟨_, rfl⟩

def labelled : Net where
  name := "größe"
  ops :=
    [{ kind := "Conv", name := "c1", inputs := ["X", "重み"], outputs := ["Y"],
       args := [("kernel", "3"), ("stride", "")] },
     { kind := "Fill" }]
  externalInputs := ["X"]

theorem labelledRoundTrip :
    labelled.Writable ∧ (∀ rest, decode (encode labelled ++ rest) = .ok labelled) ∧
      ∀ front, front <+: encode labelled → front ≠ encode labelled →
        ∃ text, decode front = .error (Cause.serialization text) := by
  have sorted : Ascending.Sorted ["kernel", "stride"] := by
    unfold Ascending.Sorted
    decide
  have conv : (labelled.ops[0]).Writable :=
    ⟨by decide, by decide, by decide, by decide, by decide, by decide, by decide, by decide, sorted⟩
  have fill : (labelled.ops[1]).Writable :=
    ⟨by decide, by decide, by decide, by decide, by decide, by decide, by decide, by decide, .nil⟩
  have writable : labelled.Writable :=
    ⟨by decide, by decide, List.forall_mem_cons.mpr ⟨conv, List.forall_mem_singleton.mpr fill⟩,
      by decide, by decide, by decide, by decide⟩
  exact ⟨writable, decodeEncode labelled writable⟩

end Pack

end OpNet
