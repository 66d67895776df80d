import OpNet.Proofs.FusedNodes
import OpNet.Proofs.RoundTrip
import Mathlib.Algebra.GroupWithZero.Nat
import Mathlib.Algebra.Order.BigOperators.Group.List
import Mathlib.Algebra.Order.Group.Nat

/-!
How large nets get. The size of a net counts the bytes of its texts, and one for each operator, blob
and argument. Main statements: a net read from bytes is no larger than they are, and a pass of a
fusion never makes a net larger, if the kind that it writes is no longer than those it replaces; so
what comes out of a small file can be written.
-/
namespace OpNet

def textSize (text : String) : Nat := text.utf8ByteSize + 1

def textsSize (texts : List String) : Nat := (texts.map textSize).sum

def argSize (arg : String × String) : Nat := arg.1.utf8ByteSize + arg.2.utf8ByteSize + 1

def argsSize (args : List (String × String)) : Nat := (args.map argSize).sum

def Operator.size (op : Operator) : Nat :=
  textSize op.kind + op.name.utf8ByteSize + textsSize op.inputs + textsSize op.outputs +
    argsSize op.args

def opsSize (ops : List Operator) : Nat := (ops.map Operator.size).sum

def Net.size (net : Net) : Nat :=
  net.name.utf8ByteSize + opsSize net.ops + textsSize net.externalInputs +
    textsSize net.externalOutputs

def Operator.Mapped (op : Operator) : Prop := Ascending.Sorted (op.args.map Prod.fst)

structure Net.Fits (net : Net) (n : Nat) : Prop where
  mapped : ∀ op ∈ net.ops, op.Mapped
  size : net.size ≤ n

section
variable {α : Type} {size : α → Nat} {xs : List α} {n : Nat}

theorem countSmall (positive : ∀ x, 0 < size x) (small : (xs.map size).sum < n) :
    xs.length < n := by
  refine Nat.lt_of_le_of_lt ?_ small
  rw [← List.length_map (f := size)]
  exact List.length_le_sum_of_one_le _ (List.forall_mem_map.mpr fun x _ => positive x)

theorem eachSmall (small : (xs.map size).sum < n) : ∀ x ∈ xs, size x < n := fun _ mem =>
  Nat.lt_of_le_of_lt
    (List.single_le_sum (fun _ _ => Nat.zero_le _) _ (List.mem_map_of_mem mem)) small

end

theorem textsSmall {texts : List String} {n : Nat} (small : textsSize texts < n) :
    texts.length < n ∧ ∀ text ∈ texts, text.utf8ByteSize < n :=
  ⟨countSmall (fun _ => Nat.succ_pos _) small, fun text mem =>
    Nat.lt_of_succ_lt (eachSmall small text mem)⟩

theorem Operator.writableOfSmall {op : Operator} (mapped : op.Mapped) (small : op.size < 2 ^ 32) :
    op.Writable := by
  unfold size textSize at small
  obtain ⟨inputCount, inputs⟩ : op.inputs.length < 2 ^ 32 ∧ _ := textsSmall (by omega)
  obtain ⟨outputCount, outputs⟩ : op.outputs.length < 2 ^ 32 ∧ _ := textsSmall (by omega)
  have args : argsSize op.args < 2 ^ 32 := by omega
  refine ⟨?_, ?_, inputCount, inputs, outputCount, outputs, ?_, fun arg mem => ?_, mapped⟩
  · unfold Pack.Short
    omega
  · unfold Pack.Short
    omega
  · exact countSmall (fun _ => Nat.succ_pos _) args
  · have here := eachSmall args arg mem
    unfold argSize at here
    unfold Pack.Short
    omega

theorem Net.Fits.writable {net : Net} {n : Nat} (fits : net.Fits n) (few : n < 2 ^ 32) :
    net.Writable := by
  have small := Nat.lt_of_le_of_lt fits.size few
  unfold Net.size at small
  obtain ⟨inputCount, inputs⟩ : net.externalInputs.length < 2 ^ 32 ∧ _ := textsSmall (by omega)
  obtain ⟨outputCount, outputs⟩ : net.externalOutputs.length < 2 ^ 32 ∧ _ := textsSmall (by omega)
  have ops : opsSize net.ops < 2 ^ 32 := by omega
  refine ⟨?_, ?_, fun op mem => ?_, inputCount, inputs, outputCount, outputs⟩
  · unfold Pack.Short
    omega
  · refine countSmall (fun op => ?_) ops
    unfold Operator.size textSize
    omega
  · exact Operator.writableOfSmall (fits.mapped op mem) (eachSmall ops op mem)

/-! Maps that are built entry by entry. -/

section
variable {κ ν : Type} [Ord κ]

theorem sizePut (size : κ × ν → Nat) (key : κ) (value : ν) (map : List (κ × ν)) :
    ((Ascending.put key value map).map size).sum ≤ (map.map size).sum + size (key, value) := by
  induction map with
  | nil => simp [Ascending.put]
  | cons entry rest ih =>
    simp only [Ascending.put]
    split <;> simp only [List.map_cons, List.sum_cons] <;> omega

theorem sortedPut [Std.LawfulEqOrd κ] [Std.TransOrd κ] {key : κ} {value : ν} {map : List (κ × ν)}
    (sorted : Ascending.Sorted (map.map Prod.fst)) :
    Ascending.Sorted ((Ascending.put key value map).map Prod.fst) := by
  have keys : (Ascending.put key value map).map Prod.fst =
      Ascending.insert key (map.map Prod.fst) := by
    induction map with
    | nil => rfl
    | cons entry rest ih =>
      have tail := ih (List.pairwise_cons.mp sorted).2
      simp only [Ascending.put, List.map_cons, Ascending.insert]
      split
      · rfl
      · rename_i same
        rw [List.map_cons, Std.LawfulEqOrd.eq_of_compare same]
      · rw [List.map_cons, tail]
  rw [keys]
  exact Ascending.sortedInsert sorted

end

namespace Pack

/-! A reader takes at least as many bytes as what it reads weighs. -/

def Weighs {α : Type} (reader : Reader α) (size : α → Nat) (good : α → Prop) : Prop :=
  ∀ bytes value rest, reader bytes = .ok (value, rest) →
    good value ∧ size value + rest.length ≤ bytes.length

section
variable {α β : Type} {reader : Reader α} {size : α → Nat} {good : α → Prop}

theorem takeWeighs (n : Nat) : Weighs (take n) List.length fun _ => True := by
  intro bytes value rest ok
  simp only [take, List.splitAt_eq] at ok
  split at ok
  · cases ok
  · cases ok
    exact ⟨trivial, by rw [← List.length_append, List.take_append_drop]⟩

theorem Weighs.as {f : α → β} {after : β → Nat} {goodAfter : β → Prop}
    (first : Weighs reader size good) (fine : ∀ a, good a → goodAfter (f a))
    (less : ∀ a, after (f a) ≤ size a) : Weighs (reader.as f) after goodAfter := by
  intro bytes value rest ok
  obtain ⟨⟨a, rest⟩, read, ok⟩ := bindOk.mp ok
  cases ok
  obtain ⟨here, taken⟩ := first bytes a rest read
  have small := less a
  exact ⟨fine a here, by omega⟩

end

def Token.load : Token → Nat
  | .text data | .binary data => data.length
  | _ => 0

def Token.size (t : Token) : Nat := t.load + 1

theorem numberWeighs (width : Nat) : Weighs (number width) (fun _ => 0) fun _ => True :=
  (takeWeighs width).as (fun _ _ => trivial) fun _ => Nat.zero_le _

theorem payloadWeighs (width : Nat) : Weighs (payload width) List.length fun _ => True := by
  intro bytes value rest ok
  obtain ⟨⟨length, middle⟩, read, ok⟩ := bindOk.mp ok
  have head := (numberWeighs width _ _ _ read).2
  have data := (takeWeighs length _ _ _ ok).2
  exact ⟨trivial, by omega⟩

theorem extensionWeighs (length : Nat) : Weighs (extension length) Token.load fun _ => True := by
  intro bytes value rest ok
  obtain ⟨⟨kind, middle⟩, read, ok⟩ := bindOk.mp ok
  obtain ⟨⟨data, last⟩, more, ok⟩ := bindOk.mp ok
  cases ok
  have head := (takeWeighs 1 _ _ _ read).2
  have tail := (takeWeighs length _ _ _ more).2
  exact ⟨trivial, by simp only [Token.load]; omega⟩

theorem sizedExtensionWeighs (width : Nat) :
    Weighs (sizedExtension width) Token.load fun _ => True := by
  intro bytes value rest ok
  obtain ⟨⟨length, middle⟩, read, ok⟩ := bindOk.mp ok
  have head := (numberWeighs width _ _ _ read).2
  have data := (extensionWeighs length _ _ _ ok).2
  exact ⟨trivial, by omega⟩

theorem bareWeighs {t : Token} (bare : t.load = 0) :
    Weighs (fun rest => .ok (t, rest)) Token.load fun _ => True := by
  intro bytes value rest ok
  cases ok
  exact ⟨trivial, by omega⟩

theorem markerWeighs (marker : Nat) : Weighs (afterMarker marker) Token.load fun _ => True := by
  unfold afterMarker
  split
  · exact bareWeighs rfl
  split
  · exact bareWeighs rfl
  split
  · exact bareWeighs rfl
  split
  · exact (takeWeighs _).as (fun _ _ => trivial) fun _ => Nat.le_refl _
  split
  · exact bareWeighs rfl
  split
  all_goals
    first
    | exact bareWeighs rfl
    | exact (payloadWeighs _).as (fun _ _ => trivial) fun _ => Nat.le_refl _
    | exact (numberWeighs _).as (fun _ _ => trivial) fun _ => Nat.le_refl _
    | exact (takeWeighs _).as (fun _ _ => trivial) fun _ => Nat.zero_le _
    | exact extensionWeighs _
    | exact sizedExtensionWeighs _
    | (intro _ _ _ ok; cases ok)

theorem tokenWeighs : Weighs token Token.size fun _ => True := by
  intro bytes value rest ok
  cases bytes with
  | nil => cases ok
  | cons marker bytes =>
    have taken := (markerWeighs marker.toNat bytes value rest ok).2
    refine ⟨trivial, ?_⟩
    rw [Token.size, List.length_cons]
    omega

theorem sizeOfUTF8 {data : Bytes} {text : String}
    (read : String.fromUTF8? ⟨data.toArray⟩ = some text) : text.utf8ByteSize = data.length := by
  unfold String.fromUTF8? at read
  split at read
  · cases read
    rfl
  · cases read

theorem stringWeighs : Weighs string textSize fun _ => True := by
  intro bytes value rest ok
  obtain ⟨⟨head, middle⟩, read, ok⟩ := bindOk.mp ok
  have taken := (tokenWeighs _ _ _ read).2
  refine ⟨trivial, ?_⟩
  unfold Token.size at taken
  unfold textSize
  simp only at ok
  split at ok
  case h_3 => cases ok
  all_goals
    split at ok
    · rename_i some
      cases ok
      rw [sizeOfUTF8 some]
      exact taken
    · cases ok

section
variable {α : Type} {reader : Reader α} {size : α → Nat} {good : α → Prop}

theorem repeatedWeighs (item : Weighs reader size good) (count : Nat) :
    Weighs (repeated reader count) (fun items => (items.map size).sum) fun items =>
      ∀ x ∈ items, good x := by
  induction count with
  | zero =>
    intro bytes value rest ok
    cases ok
    simp
  | succ count ih =>
    intro bytes value rest ok
    obtain ⟨⟨x, middle⟩, read, ok⟩ := bindOk.mp ok
    obtain ⟨⟨items, last⟩, more, ok⟩ := bindOk.mp ok
    cases ok
    obtain ⟨here, taken⟩ := item _ _ _ read
    obtain ⟨later, also⟩ := ih _ _ _ more
    simp only [List.forall_mem_cons, List.map_cons, List.sum_cons] at also ⊢
    exact ⟨⟨here, later⟩, by omega⟩

theorem listWeighs (item : Weighs reader size good) :
    Weighs (list reader) (fun items => (items.map size).sum) fun items =>
      ∀ x ∈ items, good x := by
  intro bytes value rest ok
  obtain ⟨⟨head, middle⟩, read, ok⟩ := bindOk.mp ok
  have taken := (tokenWeighs _ _ _ read).2
  simp only at ok
  split at ok
  · obtain ⟨each, also⟩ := repeatedWeighs item _ _ _ _ ok
    exact ⟨each, by omega⟩
  · cases ok

end

theorem entryWeighs : Weighs entry argSize fun _ => True := by
  intro bytes value rest ok
  obtain ⟨⟨key, middle⟩, read, ok⟩ := bindOk.mp ok
  obtain ⟨⟨text, last⟩, more, ok⟩ := bindOk.mp ok
  cases ok
  have head := (stringWeighs _ _ _ read).2
  have tail := (stringWeighs _ _ _ more).2
  unfold textSize at head tail
  simp only [argSize, true_and]
  omega

theorem ofPairsWeighs (entries : List (String × String)) :
    Ascending.Sorted ((Ascending.ofPairs entries).map Prod.fst) ∧
      argsSize (Ascending.ofPairs entries) ≤ argsSize entries := by
  unfold argsSize Ascending.ofPairs
  induction entries using List.reverseRecOn with
  | nil => exact ⟨.nil, Nat.le_refl _⟩
  | append_singleton front arg ih =>
    rw [List.foldl_append, List.foldl_cons, List.foldl_nil, List.map_append, List.sum_append]
    refine ⟨sortedPut ih.1, Nat.le_trans (sizePut _ _ _ _) ?_⟩
    simpa using ih.2

theorem textMapWeighs :
    Weighs textMap argsSize fun args => Ascending.Sorted (args.map Prod.fst) := by
  intro bytes value rest ok
  obtain ⟨⟨head, middle⟩, read, ok⟩ := bindOk.mp ok
  have taken := (tokenWeighs _ _ _ read).2
  simp only at ok
  split at ok
  · obtain ⟨⟨entries, rest⟩, each, ok⟩ := bindOk.mp ok
    cases ok
    obtain ⟨sorted, less⟩ := ofPairsWeighs entries
    have also : argsSize entries + _ ≤ _ := (repeatedWeighs entryWeighs _ _ _ _ each).2
    exact ⟨sorted, by omega⟩
  · cases ok

theorem skipShortens (fuel depth count : Nat) {bytes rest : Bytes}
    (ok : skip fuel depth count bytes = .ok rest) : rest.length ≤ bytes.length := by
  induction fuel generalizing depth count bytes rest with
  | zero =>
    cases count with
    | zero =>
      cases ok
      exact Nat.le_refl _
    | succ count => cases ok
  | succ fuel ih =>
    cases count with
    | zero =>
      cases ok
      exact Nat.le_refl _
    | succ count =>
      simp only [skip] at ok
      obtain ⟨⟨head, middle⟩, read, ok⟩ := bindOk.mp ok
      have taken := (tokenWeighs _ _ _ read).2
      -- Once the inside of the first value is skipped, `ih` is about the values after it.
      have step (after : Bytes) (within : after.length ≤ middle.length)
          (ok : skip fuel depth count after = .ok rest) : rest.length ≤ bytes.length := by
        have later := ih depth count ok
        omega
      cases depth with
      | zero =>
        cases head with
        | array | map | extension => cases ok
        | _ => exact step middle (Nat.le_refl _) ok
      | succ inner =>
        cases head with
        | array | map =>
          obtain ⟨after, within, ok⟩ := bindOk.mp ok
          exact step after (ih inner _ within) ok
        | _ => exact step middle (Nat.le_refl _) ok

namespace Layout
variable {σ : Type} {layout : Layout σ} {size : σ → Nat} {good : σ → Prop}

def Gathers (layout : Layout σ) (size : σ → Nat) (good : σ → Prop) : Prop :=
  ∀ fields i bytes next rest, good fields → layout.read fields i bytes = .ok (next, rest) →
    good next ∧ size next + rest.length ≤ size fields + bytes.length

theorem Gathers.entry (gathers : layout.Gathers size good) {depth : Nat} {fields next : σ}
    {bytes rest : Bytes} (fine : good fields)
    (ok : layout.readEntry depth fields bytes = .ok (next, rest)) :
    good next ∧ size next + rest.length ≤ size fields + bytes.length := by
  obtain ⟨⟨key, middle⟩, read, ok⟩ := bindOk.mp ok
  have taken := (tokenWeighs _ _ _ read).2
  obtain ⟨field, known, ok⟩ := bindOk.mp ok
  cases field with
  | some i =>
    simp only at ok
    split at ok
    · cases ok
    · obtain ⟨here, also⟩ := gathers _ _ _ _ _ fine ok
      exact ⟨here, by omega⟩
  | none =>
    obtain ⟨after, skipped, ok⟩ := bindOk.mp ok
    cases ok
    have also := skipShortens _ _ _ skipped
    exact ⟨fine, by omega⟩

theorem Gathers.entries (gathers : layout.Gathers size good) {depth count : Nat} {fields next : σ}
    {bytes rest : Bytes} (fine : good fields)
    (ok : layout.readEntries depth count fields bytes = .ok (next, rest)) :
    good next ∧ size next + rest.length ≤ size fields + bytes.length := by
  induction count generalizing fields bytes with
  | zero =>
    cases ok
    exact ⟨fine, Nat.le_refl _⟩
  | succ count ih =>
    obtain ⟨⟨middle, left⟩, read, ok⟩ := bindOk.mp ok
    obtain ⟨here, taken⟩ := gathers.entry fine read
    obtain ⟨last, also⟩ := ih here ok
    exact ⟨last, by omega⟩

theorem Gathers.inOrder (gathers : layout.Gathers size good) {count i : Nat} {fields next : σ}
    {bytes rest : Bytes} (fine : good fields)
    (ok : layout.readInOrder count i fields bytes = .ok (next, rest)) :
    good next ∧ size next + rest.length ≤ size fields + bytes.length := by
  induction count generalizing i fields bytes with
  | zero =>
    cases ok
    exact ⟨fine, Nat.le_refl _⟩
  | succ count ih =>
    obtain ⟨⟨middle, left⟩, read, ok⟩ := bindOk.mp ok
    obtain ⟨here, taken⟩ := gathers _ _ _ _ _ fine read
    obtain ⟨last, also⟩ := ih here ok
    exact ⟨last, by omega⟩

theorem Gathers.record (gathers : layout.Gathers size good) {depth : Nat} {empty : σ}
    (fine : good empty) (bare : size empty = 0) :
    Weighs (layout.readRecord depth empty) size good := by
  intro bytes next rest ok
  obtain ⟨⟨head, middle⟩, read, ok⟩ := bindOk.mp ok
  have taken := (tokenWeighs _ _ _ read).2
  simp only at ok
  split at ok
  · obtain ⟨last, also⟩ := gathers.entries fine ok
    exact ⟨last, by omega⟩
  · split at ok
    · cases ok
    · obtain ⟨last, also⟩ := gathers.inOrder fine ok
      exact ⟨last, by omega⟩
  · cases ok

end Layout

namespace OperatorFields

def size (fields : OperatorFields) : Nat :=
  fields.kind.elim 0 textSize + fields.name.elim 0 String.utf8ByteSize +
    fields.inputs.elim 0 textsSize + fields.outputs.elim 0 textsSize + fields.args.elim 0 argsSize

def Mapped (fields : OperatorFields) : Prop :=
  ∀ args, fields.args = some args → Ascending.Sorted (args.map Prod.fst)

theorem gathers : layout.Gathers size Mapped := by
  intro fields i bytes next rest fine ok
  simp only [layout] at ok
  split at ok
  all_goals
    obtain ⟨⟨value, rest⟩, read, ok⟩ := bindOk.mp ok
    cases ok
  · have taken := (stringWeighs _ _ _ read).2
    refine ⟨fine, ?_⟩
    simp only [size, Option.elim_some]
    omega
  · have taken := (stringWeighs _ _ _ read).2
    unfold textSize at taken
    refine ⟨fine, ?_⟩
    simp only [size, Option.elim_some]
    omega
  · have taken : textsSize value + _ ≤ _ := (listWeighs stringWeighs _ _ _ read).2
    refine ⟨fine, ?_⟩
    simp only [size, Option.elim_some]
    omega
  · have taken : textsSize value + _ ≤ _ := (listWeighs stringWeighs _ _ _ read).2
    refine ⟨fine, ?_⟩
    simp only [size, Option.elim_some]
    omega
  · obtain ⟨sorted, taken⟩ := textMapWeighs _ _ _ read
    refine ⟨fun args same => ?_, ?_⟩
    · cases same
      exact sorted
    · simp only [size, Option.elim_some]
      omega

end OperatorFields

theorem sizeMissing {α : Type} (size : α → Nat) {missing : α} (bare : size missing = 0)
    (field : Option α) : size (field.getD missing) = field.elim 0 size := by
  cases field with
  | none => exact bare
  | some value => rfl

theorem operatorWeighs : Weighs readOperator Operator.size Operator.Mapped := by
  intro bytes op rest ok
  obtain ⟨⟨fields, middle⟩, read, ok⟩ := bindOk.mp ok
  obtain ⟨made, finished, ok⟩ := bindOk.mp ok
  cases ok
  have bare : OperatorFields.Mapped {} := fun args none => by cases none
  obtain ⟨mapped, taken⟩ := OperatorFields.gathers.record bare rfl _ _ _ read
  unfold OperatorFields.finish at finished
  split at finished
  · cases finished
  · rename_i kind known
    cases finished
    constructor
    · cases given : fields.args with
      | none => simp [Operator.Mapped, Ascending.Sorted]
      | some args => simpa [Operator.Mapped, given] using mapped args given
    · simp only [OperatorFields.size, known, Option.elim_some] at taken
      have name := sizeMissing String.utf8ByteSize (rfl : "".utf8ByteSize = 0) fields.name
      have inputs := sizeMissing textsSize (rfl : textsSize [] = 0) fields.inputs
      have outputs := sizeMissing textsSize (rfl : textsSize [] = 0) fields.outputs
      have args := sizeMissing argsSize (rfl : argsSize [] = 0) fields.args
      simp only [Operator.size]
      omega

namespace NetFields

def size (fields : NetFields) : Nat :=
  fields.name.elim 0 String.utf8ByteSize + fields.ops.elim 0 opsSize +
    fields.externalInputs.elim 0 textsSize + fields.externalOutputs.elim 0 textsSize

def Mapped (fields : NetFields) : Prop :=
  ∀ ops, fields.ops = some ops → ∀ op ∈ ops, op.Mapped

theorem gathers : layout.Gathers size Mapped := by
  intro fields i bytes next rest fine ok
  simp only [layout] at ok
  split at ok
  all_goals
    obtain ⟨⟨value, rest⟩, read, ok⟩ := bindOk.mp ok
    cases ok
  · have taken := (stringWeighs _ _ _ read).2
    unfold textSize at taken
    refine ⟨fine, ?_⟩
    simp only [size, Option.elim_some]
    omega
  · obtain ⟨mapped, taken⟩ : _ ∧ opsSize value + _ ≤ _ := listWeighs operatorWeighs _ _ _ read
    refine ⟨fun ops same => ?_, ?_⟩
    · cases same
      exact mapped
    · simp only [size, Option.elim_some]
      omega
  · have taken : textsSize value + _ ≤ _ := (listWeighs stringWeighs _ _ _ read).2
    refine ⟨fine, ?_⟩
    simp only [size, Option.elim_some]
    omega
  · have taken : textsSize value + _ ≤ _ := (listWeighs stringWeighs _ _ _ read).2
    refine ⟨fine, ?_⟩
    simp only [size, Option.elim_some]
    omega

end NetFields

theorem decodedFits {bytes : Bytes} {net : Net} (ok : decode bytes = .ok net) :
    net.Fits bytes.length := by
  unfold decode at ok
  split at ok
  · rename_i rest read
    cases ok
    obtain ⟨⟨fields, middle⟩, gathered, ok⟩ := bindOk.mp read
    cases ok
    have bare : NetFields.Mapped {} := fun ops none => by cases none
    obtain ⟨mapped, taken⟩ := NetFields.gathers.record bare rfl _ _ _ gathered
    constructor
    · cases given : fields.ops with
      | none => simp [NetFields.finish, given]
      | some ops => simpa [NetFields.finish, given] using mapped ops given
    · have name := sizeMissing String.utf8ByteSize (rfl : "".utf8ByteSize = 0) fields.name
      have ops := sizeMissing opsSize (rfl : opsSize [] = 0) fields.ops
      have inputs := sizeMissing textsSize (rfl : textsSize [] = 0) fields.externalInputs
      have outputs := sizeMissing textsSize (rfl : textsSize [] = 0) fields.externalOutputs
      unfold NetFields.size at taken
      simp only [Net.size, NetFields.finish]
      omega
  · cases ok

end Pack

/-! A fused operator is no larger than the operators that it stands for. -/

theorem textsSublist {few many : List String} (sub : few.Sublist many) :
    textsSize few ≤ textsSize many :=
  (sub.map textSize).sum_le_sum fun _ _ => Nat.zero_le _

theorem eraseDupsSublist (xs : List String) : xs.eraseDups.Sublist xs := by
  generalize long : xs.length = n
  induction n using Nat.strongRecOn generalizing xs with
  | ind n ih =>
    cases xs with
    | nil => exact .slnil
    | cons x rest =>
      rw [List.eraseDups_cons]
      have fewer := List.length_filter_le (fun b => !b == x) rest
      rw [List.length_cons] at long
      exact .cons_cons x ((ih _ (by omega) _ rfl).trans List.filter_sublist)

theorem joinedSize (names : List String) :
    ("+".intercalate names).utf8ByteSize ≤ textsSize names - 1 := by
  induction names with
  | nil => exact Nat.zero_le _
  | cons name rest ih =>
    cases rest with
    | nil => simp [textsSize, textSize]
    | cons next rest =>
      have plus : "+".utf8ByteSize = 1 := rfl
      rw [String.intercalate_cons_cons, String.utf8ByteSize_append, String.utf8ByteSize_append,
        plus]
      simp only [textsSize, List.map_cons, List.sum_cons, textSize] at ih ⊢
      omega

theorem Operator.withArgsArgs (op : Operator) (entries : List (String × String)) :
    op.withArgs entries = { op with
      args := entries.foldl (fun map entry => Ascending.put entry.1 entry.2 map) op.args } := by
  unfold withArgs
  induction entries generalizing op with
  | nil => rfl
  | cons entry rest ih => exact ih (op.withArg entry.1 entry.2)

theorem opsSizeParts (ops : List Operator) : opsSize ops =
    (ops.map fun op => op.kind.utf8ByteSize).sum + textsSize (ops.map Operator.name) +
      (ops.map fun op => textsSize op.inputs).sum + (ops.map fun op => textsSize op.outputs).sum +
        argsSize (ops.flatMap Operator.args) := by
  induction ops with
  | nil => rfl
  | cons op rest ih =>
    simp only [opsSize, textsSize, argsSize, List.map_cons, List.sum_cons, List.flatMap_cons,
      List.map_append, List.sum_append, Operator.size, textSize] at ih ⊢
    omega

namespace Fusion
open OpNet.Graph Search Net

variable {f : Fusion} {g : Graph} {chain : List Nat} {kinds : List String} {ops : List Operator}
  {op : Operator}

theorem mergedSmall (f : Fusion) {last : Operator} (mem : last ∈ ops) {inputs : List String}
    (kinds : f.fused.utf8ByteSize ≤ (ops.map fun op => op.kind.utf8ByteSize).sum)
    (entering : textsSize inputs ≤ (ops.map fun op => textsSize op.inputs).sum) :
    (f.merged ops inputs last.outputs).Mapped ∧
      (f.merged ops inputs last.outputs).size ≤ opsSize ops := by
  obtain ⟨sorted, args⟩ := Pack.ofPairsWeighs (ops.flatMap Operator.args)
  have parts := opsSizeParts ops
  have outputs : textsSize last.outputs ≤ (ops.map fun op => textsSize op.outputs).sum :=
    List.single_le_sum (fun _ _ => Nat.zero_le _) _ (List.mem_map.mpr ⟨last, mem, rfl⟩)
  have joined := joinedSize ((ops.map Operator.name).filter fun name => name ≠ "")
  have names := textsSublist (List.filter_sublist (p := fun name : String => decide (name ≠ ""))
    (l := ops.map Operator.name))
  have some : 0 < textsSize (ops.map Operator.name) := by
    cases ops with
    | nil => cases mem
    | cons op rest => simp [textsSize, textSize]
  unfold merged
  rw [Operator.withArgsArgs]
  refine ⟨sorted, ?_⟩
  simp only [Operator.size, textSize]
  unfold Ascending.ofPairs at args
  omega

theorem membersKinds (long : chain.length = kinds.length)
    (ok : f.members g chain kinds = .ok ops) : ops.map Operator.kind = kinds := by
  induction chain generalizing kinds ops with
  | nil =>
    cases ok
    exact (List.eq_nil_of_length_eq_zero long.symm).symm
  | cons i rest ih =>
    cases kinds with
    | nil => cases long
    | cons kind kinds =>
      obtain ⟨node, _, ok⟩ := bindOk.mp ok
      split at ok
      · rename_i same
        obtain ⟨later, tail, ok⟩ := bindOk.mp ok
        cases ok
        rw [List.map_cons, same, ih (Nat.succ.inj long) tail]
      · cases ok

theorem filteredSmall (g : Graph) (kept : Nat → String → Bool) (chain : List Nat) :
    textsSize (chain.flatMap fun i => (g.inputs i).filter (kept i)) ≤
      ((g.opsAt chain).map fun op => textsSize op.inputs).sum := by
  induction chain with
  | nil => exact Nat.le_refl _
  | cons i rest ih =>
    have here : textsSize ((g.inputs i).filter (kept i)) ≤ textsSize (g.inputs i) :=
      textsSublist List.filter_sublist
    rw [List.flatMap_cons, textsSize, List.map_append, List.sum_append]
    cases known : g.node? i with
    | none =>
      have none : g.inputs i = [] := by rw [inputs, known]; rfl
      simpa [none, opsAt, known, textsSize] using ih
    | some node =>
      have reads : g.inputs i = node.op.inputs := by rw [inputs, known]; rfl
      rw [reads] at here ⊢
      simp only [opsAt, textsSize, List.filterMap_cons, known, Option.map_some, List.map_cons,
        List.sum_cons] at here ih ⊢
      omega

theorem enteringSmall (g : Graph) (chain : List Nat) : textsSize (g.entering chain) ≤
    ((g.opsAt chain).map fun op => textsSize op.inputs).sum :=
  Nat.le_trans (textsSublist (eraseDupsSublist _)) (filteredSmall g _ chain)

theorem replacementSmall (shorter : f.fused.utf8ByteSize ≤ (f.pattern.map String.utf8ByteSize).sum)
    (ok : f.replacement g chain = .ok op) : op.Mapped ∧ op.size ≤ opsSize (g.opsAt chain) := by
  unfold replacement at ok
  split at ok
  · cases ok
  rename_i long
  obtain ⟨ops, members, ok⟩ := bindOk.mp ok
  have long := Decidable.not_not.mp long
  have picked : g.opsAt chain = ops := by
    have known := congrArg (·.filterMap id) (membersPick long members)
    simpa [opsAt, List.filterMap_map] using known
  have kinds := membersKinds long members
  split at ok
  · cases ok
  rename_i last final
  obtain ⟨inputs, asked, ok⟩ := bindOk.mp ok
  cases ok
  obtain ⟨_, _, entering⟩ := bindOk.mp asked
  cases entering
  have small := enteringSmall g chain
  rw [picked] at small ⊢
  refine f.mergedSmall (List.mem_of_getLast? final) ?_ small
  rw [← kinds, List.map_map] at shorter
  exact shorter

theorem replacementsSmall (shorter : f.fused.utf8ByteSize ≤ (f.pattern.map String.utf8ByteSize).sum)
    {found : List Match} (asks : found.map (fun m => f.replacement g m.nodes) = ops.map .ok) :
    (∀ op ∈ ops, op.Mapped) ∧ opsSize ops ≤ opsSize (g.opsAt (found.flatMap Match.nodes)) := by
  induction found generalizing ops with
  | nil =>
    cases ops with
    | nil => exact ⟨by simp, Nat.le_refl _⟩
    | cons op rest => cases asks
  | cons m found ih =>
    cases ops with
    | nil => cases asks
    | cons op rest =>
      obtain ⟨asked, later⟩ := List.cons.inj asks
      obtain ⟨mapped, small⟩ := replacementSmall shorter asked
      obtain ⟨others, less⟩ := ih later
      refine ⟨List.forall_mem_cons.mpr ⟨mapped, others⟩, ?_⟩
      rw [List.flatMap_cons, opsAtAppend]
      simp only [opsSize, List.map_cons, List.sum_cons, List.map_append, List.sum_append] at *
      omega

theorem searchedOfApply {pass : Pass} {net out : Net} (ok : pass.applyTo net = .ok out) :
    ∃ result, findMatches (ofNet net) pass.rule pass.config = .ok result := by
  cases searched : findMatches (ofNet net) pass.rule pass.config with
  | ok result => exact ⟨result, rfl⟩
  | error e =>
    have failed : pass.search (ofNet net) = .error (e.during pass.rule.name "pattern_match") := by
      rw [Pass.search, searched]
      rfl
    simp only [Pass.applyTo, Pass.runNet, Pass.run, failed] at ok
    cases ok

theorem passFits (shorter : f.fused.utf8ByteSize ≤ (f.pattern.map String.utf8ByteSize).sum)
    {config : Config} {net out : Net} {n : Nat} (fits : net.Fits n)
    (ok : (Pass.mk f.rule config).applyTo net = .ok out) : out.Fits n := by
  obtain ⟨result, searched⟩ := searchedOfApply ok
  have chains := chainsOfLegal (findMatchesLegal searched)
  obtain ⟨g, standing, groups, fused⟩ := chains.fused
  rw [applyToFused searched fused] at ok
  have rewrites := (appendsOfFuseEach chains.inside fused.fused).rewrites (mirroredOfNet net)
  obtain ⟨name, inputs, outputs, perm⟩ := rewrites.exported ok
  obtain ⟨ops, asks, active⟩ := rewrites.ops
  obtain ⟨sorted, small⟩ := replacementsSmall shorter asks
  rw [active] at perm
  have all : (ofNet net).opsAt (List.range net.ops.length) = net.ops := by
    simp only [opsAt, opOfNet]
    exact net.pickAll
  have whole := chains.parts.filterMap fun i => ((ofNet net).node? i).map Node.op
  rw [← opsAt, opsAtAppend, ← opsAt, all] at whole
  constructor
  · intro op mem
    rcases List.mem_append.mp (perm.mem_iff.mp mem) with old | new
    · exact fits.mapped op (whole.mem_iff.mp (List.mem_append_left _ old))
    · exact sorted op new
  · have before := (whole.map Operator.size).sum_nat
    have after := (perm.map Operator.size).sum_nat
    have same := sameNodesOfNet net
    have known := fits.size
    rw [List.map_append, List.sum_append] at before after
    unfold Net.size at known ⊢
    rw [name, inputs, outputs, same.name, same.externalInputs, same.externalOutputs]
    unfold opsSize at small known ⊢
    simp only [isolated]
    omega

end Fusion

end OpNet
