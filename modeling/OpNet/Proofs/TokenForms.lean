import OpNet.Proofs.SelfDelimiting

/-!
All forms of a token, and whole values. A length or a number may be written wider than it needs, so
that a token has several forms. Main statements: every form is read as its token, and values that
do not nest too deeply are skipped to their last byte.
-/
namespace OpNet.Pack

def countForms : List (UInt8 × Nat × (Nat → Token)) :=
  [(0xcc, 1, .natural), (0xcd, 2, .natural), (0xce, 4, .natural), (0xcf, 8, .natural),
    (0xdc, 2, .array), (0xdd, 4, .array), (0xde, 2, .map), (0xdf, 4, .map)]

def fixedForms : List (UInt8 × Nat × (Bytes → Token)) :=
  [(0xca, 4, .float), (0xcb, 8, .float), (0xd0, 1, .signed), (0xd1, 2, .signed),
    (0xd2, 4, .signed), (0xd3, 8, .signed)]

def sizedForms : List (UInt8 × Nat × (Bytes → Token)) :=
  [(0xc4, 1, .binary), (0xc5, 2, .binary), (0xc6, 4, .binary), (0xd9, 1, .text), (0xda, 2, .text),
    (0xdb, 4, .text)]

def fixedExtensionForms : List (UInt8 × Nat) :=
  [(0xd4, 1), (0xd5, 2), (0xd6, 4), (0xd7, 8), (0xd8, 16)]

def sizedExtensionForms : List (UInt8 × Nat) := [(0xc7, 1), (0xc8, 2), (0xc9, 4)]

inductive Token.Form : Token → Bytes → Prop
  | nil : Form .nil [0xc0]
  | no : Form (.boolean false) [0xc2]
  | yes : Form (.boolean true) [0xc3]
  | smallNatural {n : Nat} (fits : n < 0x80) : Form (.natural n) [UInt8.ofNat n]
  | smallSigned {n : Nat} (fits : n < 0x20) :
      Form (.signed [UInt8.ofNat (0xe0 + n)]) [UInt8.ofNat (0xe0 + n)]
  | smallText {data : Bytes} (fits : data.length < 0x20) :
      Form (.text data) (UInt8.ofNat (0xa0 + data.length) :: data)
  | smallArray {n : Nat} (fits : n < 0x10) : Form (.array n) [UInt8.ofNat (0x90 + n)]
  | smallMap {n : Nat} (fits : n < 0x10) : Form (.map n) [UInt8.ofNat (0x80 + n)]
  | count {marker : UInt8} {width n : Nat} {head : Nat → Token}
      (form : (marker, width, head) ∈ countForms) (fits : n < 256 ^ width) :
      Form (head n) (marker :: bigEndian width n)
  | fixed {marker : UInt8} {data : Bytes} {head : Bytes → Token}
      (form : (marker, data.length, head) ∈ fixedForms) : Form (head data) (marker :: data)
  | sized {marker : UInt8} {width : Nat} {data : Bytes} {head : Bytes → Token}
      (form : (marker, width, head) ∈ sizedForms) (fits : data.length < 256 ^ width) :
      Form (head data) (marker :: bigEndian width data.length ++ data)
  | fixedExtension {marker kind : UInt8} {data : Bytes}
      (form : (marker, data.length) ∈ fixedExtensionForms) :
      Form (.extension kind data) (marker :: kind :: data)
  | sizedExtension {marker kind : UInt8} {width : Nat} {data : Bytes}
      (form : (marker, width) ∈ sizedExtensionForms) (fits : data.length < 256 ^ width) :
      Form (.extension kind data) (marker :: bigEndian width data.length ++ kind :: data)

section
variable {marker kind : UInt8} {data : Bytes} {width n : Nat}

theorem countOpens : ∀ form ∈ countForms,
    afterMarker form.1.toNat = (number form.2.1).as form.2.2 := by
  simp only [countForms, List.forall_mem_cons]
  exact ⟨rfl, rfl, rfl, rfl, rfl, rfl, rfl, rfl, by simp⟩

theorem fixedOpens : ∀ form ∈ fixedForms,
    afterMarker form.1.toNat = (take form.2.1).as form.2.2 := by
  simp only [fixedForms, List.forall_mem_cons]
  exact ⟨rfl, rfl, rfl, rfl, rfl, rfl, by simp⟩

theorem sizedOpens : ∀ form ∈ sizedForms,
    afterMarker form.1.toNat = (payload form.2.1).as form.2.2 := by
  simp only [sizedForms, List.forall_mem_cons]
  exact ⟨rfl, rfl, rfl, rfl, rfl, rfl, by simp⟩

theorem fixedExtensionOpens : ∀ form ∈ fixedExtensionForms,
    afterMarker form.1.toNat = extension form.2 := by
  simp only [fixedExtensionForms, List.forall_mem_cons]
  exact ⟨rfl, rfl, rfl, rfl, rfl, by simp⟩

theorem sizedExtensionOpens : ∀ form ∈ sizedExtensionForms,
    afterMarker form.1.toNat = sizedExtension form.2 := by
  simp only [sizedExtensionForms, List.forall_mem_cons]
  exact ⟨rfl, rfl, rfl, by simp⟩

theorem smallNaturalBack (fits : n < 0x80) : ReadsBack token [UInt8.ofNat n] (.natural n) := by
  have opens : afterMarker (0 + n) = fun rest => .ok (Token.natural n, rest) := by
    unfold afterMarker
    rw [if_pos (by omega), Nat.zero_add]
  have back := smallBack (by omega) (opens ▸ ReadsBack.done (Token.natural n))
  rwa [Nat.zero_add] at back

theorem smallSignedBack (fits : n < 0x20) :
    ReadsBack token [UInt8.ofNat (0xe0 + n)] (.signed [UInt8.ofNat (0xe0 + n)]) := by
  have opens : afterMarker (0xe0 + n) =
      fun rest => .ok (Token.signed [UInt8.ofNat (0xe0 + n)], rest) := by
    unfold afterMarker
    rw [if_neg (by omega), if_neg (by omega), if_neg (by omega), if_neg (by omega),
      if_pos (by omega)]
  exact smallBack (by omega) (opens ▸ ReadsBack.done _)

theorem extensionBack (kind : UInt8) (data : Bytes) :
    ReadsBack (extension data.length) (kind :: data) (.extension kind data) :=
  (takeBack [kind]).chain ((takeBack data).as (Token.extension kind)) (fun _ => rfl) (fun _ => rfl)

theorem sizedExtensionBack (kind : UInt8) (fits : data.length < 256 ^ width) :
    ReadsBack (sizedExtension width) (bigEndian width data.length ++ kind :: data)
      (.extension kind data) :=
  (numberBack fits).chain (extensionBack kind data) (fun _ => rfl) (fun _ => rfl)

theorem formBack {t : Token} {bytes : Bytes} (form : t.Form bytes) : ReadsBack token bytes t := by
  cases form with
  | nil => exact tokenBack (ReadsBack.done _)
  | no => exact tokenBack (ReadsBack.done _)
  | yes => exact tokenBack (ReadsBack.done _)
  | smallNatural fits => exact smallNaturalBack fits
  | smallSigned fits => exact smallSignedBack fits
  | smallText fits => exact smallTextBack fits
  | smallArray fits => exact smallArrayBack fits
  | smallMap fits => exact smallMapBack fits
  | count form fits => exact countBack (countOpens _ form) fits
  | @fixed marker data head form =>
    have opens : afterMarker marker.toNat = (take data.length).as head := fixedOpens _ form
    exact tokenBack (opens ▸ (takeBack data).as head)
  | sized form fits => exact sizedBack (sizedOpens _ form) fits
  | @fixedExtension marker kind data form =>
    have opens : afterMarker marker.toNat = extension data.length := fixedExtensionOpens _ form
    exact tokenBack (opens ▸ extensionBack kind data)
  | @sizedExtension marker kind width data form fits =>
    have opens : afterMarker marker.toNat = sizedExtension width := sizedExtensionOpens _ form
    exact tokenBack (opens ▸ sizedExtensionBack kind fits)

theorem formNonempty {t : Token} {bytes : Bytes} (form : t.Form bytes) : 0 < bytes.length := by
  cases form <;> simp

end

def Token.inner? : Token → Option Nat
  | .array length => some length
  | .map length => some (2 * length)
  | _ => none

/-- Values in a row, `count` of them, in which arrays and maps nest at most `depth` deep. -/
inductive Values : (depth count : Nat) → Bytes → Prop
  | none {depth : Nat} : Values depth 0 []
  | flat {depth count : Nat} {t : Token} {head later : Bytes} (form : t.Form head)
      (single : t.inner? = none) (rest : Values depth count later) :
      Values depth (count + 1) (head ++ later)
  | nested {depth count n : Nat} {t : Token} {head inner later : Bytes} (form : t.Form head)
      (opens : t.inner? = some n) (within : Values depth n inner)
      (rest : Values (depth + 1) count later) :
      Values (depth + 1) (count + 1) (head ++ inner ++ later)

theorem skipNone (fuel depth : Nat) (bytes : Bytes) : skip fuel depth 0 bytes = .ok bytes := by
  cases fuel <;> rfl

theorem skipFlat {t : Token} {head : Bytes} (form : t.Form head) (single : t.inner? = none)
    (fuel depth count : Nat) (rest : Bytes) :
    skip (fuel + 1) (depth + 1) (count + 1) (head ++ rest) = skip fuel (depth + 1) count rest := by
  rw [skip, (formBack form).whole]
  cases t <;> simp [Token.inner?, bind, Except.bind, skipNone] at single ⊢

theorem skipNested {t : Token} {head : Bytes} {n : Nat} (form : t.Form head)
    (opens : t.inner? = some n) (fuel depth count : Nat) (rest : Bytes) :
    skip (fuel + 1) (depth + 1) (count + 1) (head ++ rest) =
      (skip fuel depth n rest >>= skip fuel (depth + 1) count) := by
  rw [skip, (formBack form).whole]
  cases t <;> simp [Token.inner?, bind, Except.bind] at opens ⊢ <;> rw [opens]

theorem skipValues {depth level count fuel : Nat} {bytes : Bytes}
    (values : Values level count bytes) (deep : level < depth) (enough : bytes.length < fuel)
    (rest : Bytes) : skip fuel depth count (bytes ++ rest) = .ok rest := by
  -- An extension takes a level of its own, hence one more than the values nest.
  induction values generalizing depth fuel rest with
  | none => exact skipNone fuel depth rest
  | flat form single _ ih =>
    obtain ⟨depth, rfl⟩ := Nat.exists_eq_add_one_of_ne_zero (Nat.ne_zero_of_lt deep)
    obtain ⟨fuel, rfl⟩ := Nat.exists_eq_add_one_of_ne_zero (Nat.ne_zero_of_lt enough)
    have some := formNonempty form
    rw [List.length_append] at enough
    rw [List.append_assoc, skipFlat form single]
    exact ih deep (by omega) rest
  | nested form opens _ _ within later =>
    obtain ⟨depth, rfl⟩ := Nat.exists_eq_add_one_of_ne_zero (Nat.ne_zero_of_lt deep)
    obtain ⟨fuel, rfl⟩ := Nat.exists_eq_add_one_of_ne_zero (Nat.ne_zero_of_lt enough)
    have some := formNonempty form
    rw [List.length_append, List.length_append] at enough
    rw [List.append_assoc, List.append_assoc, skipNested form opens,
      within (by omega) (by omega)]
    exact later deep (by omega) rest

theorem skipValueBack {depth level : Nat} {bytes : Bytes} (value : Values level 1 bytes)
    (deep : level < depth) (rest : Bytes) : skipValue depth (bytes ++ rest) = .ok rest :=
  skipValues value deep (by rw [List.length_append]; omega) rest

end OpNet.Pack
