import OpNet.Proofs.Layouts

/-!
The documents that a net is read from: the fields that a text gives for the net and for each of its
operators. Main statement: a text is decoded to the net that its document describes, however it
spells the document; and if the document repeats a field, or has an operator without a kind, the
text is refused.
-/
namespace OpNet.Pack

inductive OperatorField
  | kind (value : String)
  | name (value : String)
  | inputs (blobs : List String)
  | outputs (blobs : List String)
  | args (entries : List (String × String))

namespace OperatorField

def position : OperatorField → Nat
  | kind _ => 0
  | name _ => 1
  | inputs _ => 2
  | outputs _ => 3
  | args _ => 4

def Written : OperatorField → Bytes → Prop
  | kind value | name value => TextForm (utf8 value)
  | inputs blobs | outputs blobs => ListForm (fun blob => TextForm (utf8 blob)) blobs
  | args entries => MapForm entries

/-- The field is so in the operator; its arguments may stand in any order. -/
def Of : OperatorField → Operator → Prop
  | kind value, op => value = op.kind
  | name value, op => value = op.name
  | inputs blobs, op => blobs = op.inputs
  | outputs blobs, op => blobs = op.outputs
  | args entries, op => entries.Perm op.args

def put (fields : OperatorFields) : OperatorField → OperatorFields
  | kind value => { fields with kind := some value }
  | name value => { fields with name := some value }
  | inputs blobs => { fields with inputs := some blobs }
  | outputs blobs => { fields with outputs := some blobs }
  | args entries => { fields with args := some (Ascending.ofPairs entries) }

def form : Fields OperatorField where
  names := OperatorFields.layout.names
  position := position
  Written := Written

end OperatorField

abbrev OperatorDocument := List OperatorField

namespace OperatorDocument

structure Describes (doc : OperatorDocument) (op : Operator) : Prop where
  once : (doc.map OperatorField.position).Nodup
  agrees : ∀ field ∈ doc, field.Of op
  kind : .kind op.kind ∈ doc
  name : (∀ value, .name value ∉ doc) → op.name = ""
  inputs : (∀ blobs, .inputs blobs ∉ doc) → op.inputs = []
  outputs : (∀ blobs, .outputs blobs ∉ doc) → op.outputs = []
  args : (∀ entries, .args entries ∉ doc) → op.args = []
  ascending : Ascending.Sorted (op.args.map Prod.fst)

def Faulty (doc : OperatorDocument) : Prop :=
  ¬ (doc.map OperatorField.position).Nodup ∨ ∀ value, .kind value ∉ doc

def operator? (doc : OperatorDocument) : Option Operator :=
  (OperatorField.form.gather OperatorFields.layout (fun fields field => some (field.put fields)) {}
    doc).bind fun fields => fields.finish.toOption

end OperatorDocument

theorem operatorFits : OperatorField.form.Fits OperatorFields.layout
    (fun fields field => some (field.put fields)) where
  names := rfl
  distinct := by decide
  known field := by
    cases field <;> simp [OperatorField.form, OperatorField.position, OperatorFields.layout]
  reads fields field bytes written := by
    cases field with
    | kind value => exact (stringAnswers written).as ({ fields with kind := some · })
    | name value => exact (stringAnswers written).as ({ fields with name := some · })
    | inputs blobs => exact (textsAnswer written).as ({ fields with inputs := some · })
    | outputs blobs => exact (textsAnswer written).as ({ fields with outputs := some · })
    | args entries => exact (textMapAnswers written).as ({ fields with args := some · })
  fills fields field next same other := by
    cases same
    cases field <;> cases other <;>
      simp [OperatorField.form, OperatorField.position, OperatorField.put, OperatorFields.layout]

theorem operatorAnswers {doc : OperatorDocument} {bytes : Bytes}
    (spells : OperatorField.form.Spells doc bytes) : Answers readOperator bytes doc.operator? := by
  have record : Answers (OperatorFields.layout.readRecord (maxDepth - 3) {}) bytes _ :=
    operatorFits.recordAnswers (by decide) spells fun field => by cases field <;> rfl
  have finish : ∀ fields : OperatorFields,
      Answers (fun rest => do return (← fields.finish, rest)) [] fields.finish.toOption := by
    intro fields
    cases made : fields.finish with
    | error fault => exact fun rest => ⟨fault, rfl⟩
    | ok op => exact fun rest => rfl
  rw [← List.append_nil bytes]
  exact record.chain (fun fields _ => finish fields) (fun _ => rfl) fun _ _ => rfl

section
variable {fields : OperatorFields} {op : Operator} {doc : OperatorDocument}

structure OperatorFields.Of (fields : OperatorFields) (op : Operator) : Prop where
  kind : ∀ value, fields.kind = some value → value = op.kind
  name : ∀ value, fields.name = some value → value = op.name
  inputs : ∀ blobs, fields.inputs = some blobs → blobs = op.inputs
  outputs : ∀ blobs, fields.outputs = some blobs → blobs = op.outputs
  args : ∀ entries, fields.args = some entries → entries = op.args

theorem OperatorFields.Of.put (of : fields.Of op)
    (ascending : Ascending.Sorted (op.args.map Prod.fst)) {field : OperatorField}
    (agrees : field.Of op) : (field.put fields).Of op := by
  cases field with
  | kind value => exact { of with kind := fun _ same => Option.some.inj same ▸ agrees }
  | name value => exact { of with name := fun _ same => Option.some.inj same ▸ agrees }
  | inputs blobs => exact { of with inputs := fun _ same => Option.some.inj same ▸ agrees }
  | outputs blobs => exact { of with outputs := fun _ same => Option.some.inj same ▸ agrees }
  | args entries =>
    have same : Ascending.ofPairs entries = op.args := Ascending.ofPairsPerm agrees ascending
    exact { of with args := fun _ given => (Option.some.inj given).symm.trans same }

theorem getDOf {given : Option α} {value default : α} (agrees : ∀ v, given = some v → v = value)
    (missing : given = none → value = default) : given.getD default = value := by
  cases given with
  | none => exact (missing rfl).symm
  | some v => exact agrees v rfl

namespace OperatorDocument

theorem Describes.value (describes : doc.Describes op) : doc.operator? = some op := by
  have blank : OperatorFields.Of {} op := ⟨nofun, nofun, nofun, nofun, nofun⟩
  obtain ⟨last, made, of⟩ := operatorFits.gatherKeeps (·.Of op) describes.once
    (fun field _ => by cases field <;> rfl) blank fun fields field mem of =>
      ⟨_, rfl, of.put describes.ascending (describes.agrees field mem)⟩
  have missing : ∀ {field : OperatorField},
      OperatorFields.layout.has last field.position = false → field ∉ doc := fun none =>
    operatorFits.leftOut made none
  have name := getDOf of.name fun none => describes.name fun value =>
    missing (congrArg Option.isSome none)
  have inputs := getDOf of.inputs fun none => describes.inputs fun blobs =>
    missing (congrArg Option.isSome none)
  have outputs := getDOf of.outputs fun none => describes.outputs fun blobs =>
    missing (congrArg Option.isSome none)
  have args := getDOf of.args fun none => describes.args fun entries =>
    missing (congrArg Option.isSome none)
  rw [operator?, made, Option.bind_some, OperatorFields.finish]
  cases kind : last.kind with
  | none => exact absurd describes.kind (missing (congrArg Option.isSome kind))
  | some value =>
    obtain rfl := of.kind value kind
    simp only [name, inputs, outputs, args]
    rfl

theorem Faulty.refused (faulty : doc.Faulty) : doc.operator? = none := by
  unfold operator?
  cases made : OperatorField.form.gather OperatorFields.layout
      (fun fields field => some (field.put fields)) {} doc with
  | none => rfl
  | some last =>
    have unnamed := faulty.resolve_left fun repeated => repeated (operatorFits.gathered made).1
    rw [Option.bind_some, OperatorFields.finish]
    cases kind : last.kind with
    | none => rfl
    | some value =>
      have given : OperatorFields.layout.has last (OperatorField.form.position (.kind value)) =
          true := congrArg Option.isSome kind
      obtain ⟨field, mem, same⟩ := operatorFits.givenIn made rfl given
      cases field with
      | kind value => exact absurd mem (unnamed value)
      | _ => cases same

end OperatorDocument

end

inductive NetField
  | name (value : String)
  | ops (docs : List OperatorDocument)
  | externalInputs (blobs : List String)
  | externalOutputs (blobs : List String)

namespace NetField

def position : NetField → Nat
  | name _ => 0
  | ops _ => 1
  | externalInputs _ => 2
  | externalOutputs _ => 3

def Written : NetField → Bytes → Prop
  | name value => TextForm (utf8 value)
  | ops docs => ListForm OperatorField.form.Spells docs
  | externalInputs blobs | externalOutputs blobs =>
    ListForm (fun blob => TextForm (utf8 blob)) blobs

def Of : NetField → Net → Prop
  | name value, net => value = net.name
  | ops docs, net => List.Forall₂ OperatorDocument.Describes docs net.ops
  | externalInputs blobs, net => blobs = net.externalInputs
  | externalOutputs blobs, net => blobs = net.externalOutputs

def put (fields : NetFields) : NetField → Option NetFields
  | name value => some { fields with name := some value }
  | ops docs => (docs.mapM OperatorDocument.operator?).map ({ fields with ops := some · })
  | externalInputs blobs => some { fields with externalInputs := some blobs }
  | externalOutputs blobs => some { fields with externalOutputs := some blobs }

def form : Fields NetField where
  names := NetFields.layout.names
  position := position
  Written := Written

end NetField

abbrev NetDocument := List NetField

namespace NetDocument

structure Describes (doc : NetDocument) (net : Net) : Prop where
  once : (doc.map NetField.position).Nodup
  agrees : ∀ field ∈ doc, field.Of net
  name : (∀ value, .name value ∉ doc) → net.name = ""
  ops : (∀ docs, .ops docs ∉ doc) → net.ops = []
  externalInputs : (∀ blobs, .externalInputs blobs ∉ doc) → net.externalInputs = []
  externalOutputs : (∀ blobs, .externalOutputs blobs ∉ doc) → net.externalOutputs = []

def Faulty (doc : NetDocument) : Prop :=
  ¬ (doc.map NetField.position).Nodup ∨
    ∃ docs, .ops docs ∈ doc ∧ ∃ operator ∈ docs, OperatorDocument.Faulty operator

def net? (doc : NetDocument) : Option Net :=
  (NetField.form.gather NetFields.layout NetField.put {} doc).map NetFields.finish

end NetDocument

theorem netFits : NetField.form.Fits NetFields.layout NetField.put where
  names := rfl
  distinct := by decide
  known field := by cases field <;> simp [NetField.form, NetField.position, NetFields.layout]
  reads fields field bytes written := by
    cases field with
    | name value => exact (stringAnswers written).as ({ fields with name := some · })
    | ops docs =>
      have each : ∀ doc piece, OperatorField.form.Spells doc piece →
          Answers readOperator piece (OperatorDocument.operator? doc) := fun _ _ => operatorAnswers
      exact (listAnswers each written).as ({ fields with ops := some · })
    | externalInputs blobs =>
      exact (textsAnswer written).as ({ fields with externalInputs := some · })
    | externalOutputs blobs =>
      exact (textsAnswer written).as ({ fields with externalOutputs := some · })
  fills fields field next same other := by
    cases field with
    | ops docs =>
      obtain ⟨ops, _, rfl⟩ := Option.map_eq_some_iff.mp same
      cases other <;> simp [NetField.form, NetField.position, NetFields.layout]
    | _ =>
      cases same
      cases other <;> simp [NetField.form, NetField.position, NetFields.layout]

theorem netAnswers {doc : NetDocument} {bytes : Bytes} (spells : NetField.form.Spells doc bytes) :
    Answers readNet bytes doc.net? := by
  have record : Answers (NetFields.layout.readRecord (maxDepth - 1) {}) bytes _ :=
    netFits.recordAnswers (by decide) spells fun field => by cases field <;> rfl
  exact record.as NetFields.finish

section
variable {fields : NetFields} {net : Net} {doc : NetDocument}

structure NetFields.Of (fields : NetFields) (net : Net) : Prop where
  name : ∀ value, fields.name = some value → value = net.name
  ops : ∀ ops, fields.ops = some ops → ops = net.ops
  externalInputs : ∀ blobs, fields.externalInputs = some blobs → blobs = net.externalInputs
  externalOutputs : ∀ blobs, fields.externalOutputs = some blobs → blobs = net.externalOutputs

theorem operatorsOf {docs : List OperatorDocument} {ops : List Operator}
    (described : List.Forall₂ OperatorDocument.Describes docs ops) :
    docs.mapM OperatorDocument.operator? = some ops := by
  induction described with
  | nil => rfl
  | cons here _ ih => rw [List.mapM_cons, here.value, ih]; rfl

theorem NetFields.Of.put (of : fields.Of net) {field : NetField} (agrees : field.Of net) :
    ∃ next, field.put fields = some next ∧ next.Of net := by
  cases field with
  | name value => exact ⟨_, rfl, { of with name := fun _ same => Option.some.inj same ▸ agrees }⟩
  | ops docs =>
    refine ⟨{ fields with ops := some net.ops }, ?_,
      { of with ops := fun _ same => (Option.some.inj same).symm }⟩
    rw [NetField.put, operatorsOf agrees]
    rfl
  | externalInputs blobs =>
    exact ⟨_, rfl, { of with externalInputs := fun _ same => Option.some.inj same ▸ agrees }⟩
  | externalOutputs blobs =>
    exact ⟨_, rfl, { of with externalOutputs := fun _ same => Option.some.inj same ▸ agrees }⟩

theorem noneOfFaulty {docs : List OperatorDocument} {operator : OperatorDocument}
    (mem : operator ∈ docs) (faulty : operator.Faulty) :
    docs.mapM OperatorDocument.operator? = none := by
  induction docs with
  | nil => cases mem
  | cons first rest ih =>
    rw [List.mapM_cons]
    rcases List.mem_cons.mp mem with rfl | mem
    · rw [faulty.refused]
      rfl
    · rw [ih mem]
      cases OperatorDocument.operator? first <;> rfl

namespace NetDocument

theorem Describes.value (describes : doc.Describes net) : doc.net? = some net := by
  have blank : NetFields.Of {} net := ⟨nofun, nofun, nofun, nofun⟩
  obtain ⟨last, made, of⟩ := netFits.gatherKeeps (·.Of net) describes.once
    (fun field _ => by cases field <;> rfl) blank fun fields field mem of =>
      of.put (describes.agrees field mem)
  have missing : ∀ {field : NetField},
      NetFields.layout.has last field.position = false → field ∉ doc := fun none =>
    netFits.leftOut made none
  have name := getDOf of.name fun none => describes.name fun value =>
    missing (congrArg Option.isSome none)
  have ops := getDOf of.ops fun none => describes.ops fun docs =>
    missing (congrArg Option.isSome none)
  have inputs := getDOf of.externalInputs fun none => describes.externalInputs fun blobs =>
    missing (congrArg Option.isSome none)
  have outputs := getDOf of.externalOutputs fun none => describes.externalOutputs fun blobs =>
    missing (congrArg Option.isSome none)
  rw [net?, made, Option.map_some, NetFields.finish, name, ops, inputs, outputs]

theorem Faulty.refused (faulty : doc.Faulty) : doc.net? = none := by
  unfold net?
  rcases faulty with repeated | ⟨docs, mem, operator, inside, faulty⟩
  · cases made : NetField.form.gather NetFields.layout NetField.put {} doc with
    | none => rfl
    | some last => exact absurd (netFits.gathered made).1 repeated
  · rw [Fields.gatherFails mem fun fields => by rw [NetField.put, noneOfFaulty inside faulty]; rfl]
    rfl

end NetDocument

end

theorem decodeSpelled {doc : NetDocument} {bytes : Bytes} (spells : NetField.form.Spells doc bytes)
    (rest : Bytes) :
    (∀ net, doc.Describes net → decode (bytes ++ rest) = .ok net) ∧
      (doc.Faulty → ∃ text, decode (bytes ++ rest) = .error (Cause.serialization text)) := by
  have answers := netAnswers spells
  refine ⟨fun net describes => ?_, fun faulty => ?_⟩
  · rw [describes.value] at answers
    rw [decode, answers]
  · rw [faulty.refused] at answers
    obtain ⟨fault, failed⟩ := answers rest
    exact ⟨fault.message, by rw [decode, failed]⟩

def shuffled : Net where
  ops :=
    [{ kind := "Conv", inputs := ["X"], outputs := ["Y"], args := [("k", "3"), ("s", "1")] },
     { kind := "Relu" }]
  externalOutputs := ["Y"]

def shuffledDocument : NetDocument :=
  [.externalOutputs ["Y"],
   .ops [[.args [("s", "1"), ("k", "3")], .kind "Conv", .outputs ["Y"], .inputs ["X"]],
     [.kind "Relu"]]]

/-- A map with an unknown name and an unknown position, whose values are nested; known fields by
name and by position; one operator as a map and one as a list; lengths wider than they need be. -/
def shuffledText : Bytes :=
  [0x84,
   0xc4, 2, 0x69, 0x64, 0xdc, 0, 2, 0xc0, 0x81, 0xc3, 0xd4, 5, 0,
   0xcd, 0, 3, 0xdd, 0, 0, 0, 1, 0xc4, 1, 0x59,
   0xd9, 3, 0x6f, 0x70, 0x73, 0x92,
   0xde, 0, 4, 4, 0x82, 0xa1, 0x73, 0xa1, 0x31, 0xa1, 0x6b, 0xa1, 0x33,
   0xa7, 0x6f, 0x70, 0x5f, 0x74, 0x79, 0x70, 0x65, 0xdb, 0, 0, 0, 4, 0x43, 0x6f, 0x6e, 0x76,
   3, 0x91, 0xa1, 0x59, 0xc4, 6, 0x69, 0x6e, 0x70, 0x75, 0x74, 0x73, 0x91, 0xa1, 0x58,
   0x91, 0xa4, 0x52, 0x65, 0x6c, 0x75,
   7, 0xff]

theorem shuffledSpelled : NetField.form.Spells shuffledDocument shuffledText := by
  have small : ∀ value, (utf8 value).length < 0x20 → TextForm (utf8 value) _ := fun value fits =>
    Or.inl (.smallText fits)
  have one : ∀ value, (utf8 value).length < 0x20 →
      ListForm (fun blob => TextForm (utf8 blob)) [value] _ := fun value fits =>
    ⟨_, _, .smallArray (by simp), .cons (small value fits) .nil, rfl⟩
  have args : MapForm [("s", "1"), ("k", "3")] _ :=
    ⟨_, _, .smallMap (by decide),
      .cons ⟨_, _, small "s" (by decide), small "1" (by decide), rfl⟩ <|
        .cons ⟨_, _, small "k" (by decide), small "3" (by decide), rfl⟩ .nil, rfl⟩
  have wideText : (0xdb, 4, Token.text) ∈ sizedForms := by simp [sizedForms]
  have binary : (0xc4, 1, Token.binary) ∈ sizedForms := by simp [sizedForms]
  have wideMap : (0xde, 2, Token.map) ∈ countForms := by simp [countForms]
  have conv : OperatorField.form.Spells
      [.args [("s", "1"), ("k", "3")], .kind "Conv", .outputs ["Y"], .inputs ["X"]] _ :=
    .map (.count wideMap (by decide)) <|
      .known (.inl (.smallNatural (by decide))) args <|
      .known (.inr ⟨"op_type", rfl, small "op_type" (by decide)⟩)
        (.inl (.sized wideText (by decide))) <|
      .known (.inl (.smallNatural (by decide))) (one "Y" (by decide)) <|
      .known (.inr ⟨"inputs", rfl, .inr (.sized binary (by decide))⟩) (one "X" (by decide)) .none
  have wideArray : (0xdd, 4, Token.array) ∈ countForms := by simp [countForms]
  have middleArray : (0xdc, 2, Token.array) ∈ countForms := by simp [countForms]
  have wideNatural : (0xcd, 2, Token.natural) ∈ countForms := by simp [countForms]
  have text : (0xd9, 1, Token.text) ∈ sizedForms := by simp [sizedForms]
  have extension : (Token.extension 5 [0]).Form [0xd4, 5, 0] :=
    .fixedExtension (by simp [fixedExtensionForms])
  have entry : Values 998 2 _ := .flat .yes rfl (.flat extension rfl .none)
  have inner : Values 999 2 _ :=
    .flat .nil rfl (.nested (.smallMap (show 1 < 0x10 by decide)) rfl entry .none)
  have value : Values 1000 1 _ :=
    .nested (.count middleArray (show 2 < 256 ^ 2 by decide)) rfl inner .none
  have relu : OperatorField.form.Spells [.kind "Relu"] _ :=
    .list rfl ⟨_, _, .smallArray (by decide), .cons (small "Relu" (by decide)) .nil, rfl⟩
  have ops : ListForm OperatorField.form.Spells _ _ :=
    ⟨_, _, .smallArray (by decide), .cons conv (.cons relu .nil), rfl⟩
  have whole : NetField.form.Spells shuffledDocument _ :=
    .map (.smallMap (by decide)) <|
      .unknown (.inr ⟨[0x69, 0x64], by decide, .inr (.sized binary (by decide))⟩) value <|
      .known (.inl (.count wideNatural (by decide)))
        ⟨_, _, .count wideArray (by decide), .cons (.inr (.sized binary (by decide))) .nil, rfl⟩ <|
      .known (.inr ⟨"ops", rfl, .inl (.sized text (by decide))⟩) ops <|
      .unknown (.inl ⟨7, by decide, .smallNatural (by decide)⟩)
        (.flat (.smallSigned (show 0x1f < 0x20 by decide)) rfl .none) .none
  exact whole

theorem shuffledDecodes :
    NetField.form.Spells shuffledDocument shuffledText ∧ shuffledDocument.Describes shuffled ∧
      ∀ rest, decode (shuffledText ++ rest) = .ok shuffled := by
  have sorted : Ascending.Sorted ["k", "s"] := by
    unfold Ascending.Sorted
    decide
  have conv : OperatorDocument.Describes
      [.args [("s", "1"), ("k", "3")], .kind "Conv", .outputs ["Y"], .inputs ["X"]]
      shuffled.ops[0] :=
    ⟨by decide, by simp [OperatorField.Of, shuffled, List.Perm.swap], by simp [shuffled],
      fun _ => rfl, by simp, by simp, by simp, sorted⟩
  have relu : OperatorDocument.Describes [.kind "Relu"] shuffled.ops[1] :=
    ⟨by decide, by simp [OperatorField.Of, shuffled], by simp [shuffled], fun _ => rfl,
      fun _ => rfl, fun _ => rfl, fun _ => rfl, .nil⟩
  have describes : shuffledDocument.Describes shuffled := {
    once := by decide
    agrees := List.forall_mem_cons.mpr
      ⟨rfl, List.forall_mem_singleton.mpr (.cons conv (.cons relu .nil))⟩
    name := fun _ => rfl
    ops := by simp [shuffledDocument]
    externalInputs := fun _ => rfl
    externalOutputs := by simp [shuffledDocument] }
  exact ⟨shuffledSpelled, describes, fun rest =>
    (decodeSpelled shuffledSpelled rest).1 shuffled describes⟩

end OpNet.Pack
