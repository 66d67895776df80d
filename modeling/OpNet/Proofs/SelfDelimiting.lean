import OpNet.Pack.Decode
import Mathlib.Algebra.Group.Nat.Defs
import Mathlib.Data.List.Induction

/-!
Bytes that a reader takes for one value, wherever they stand: it stops where they end, whatever
follows, and misses what is cut off. Main statements: tokens, texts, lists and maps of texts are
written so, and whatever is put together from such parts is one again.
-/
namespace OpNet.Pack

structure ReadsBack (reader : Reader α) (bytes : Bytes) (value : α) : Prop where
  whole : ∀ rest, reader (bytes ++ rest) = .ok (value, rest)
  cut : ∀ front, front <+: bytes → front ≠ bytes → reader front = .error .truncated

namespace ReadsBack
variable {first : Reader α} {after : α × Bytes → Except Fault (β × Bytes)} {next reader : Reader β}
  {xs ys : Bytes} {a : α} {b : β}

theorem chain (head : ReadsBack first xs a) (tail : ReadsBack next ys b)
    (opens : ∀ bytes, reader bytes = first bytes >>= after)
    (goes : ∀ rest, after (a, rest) = next rest) : ReadsBack reader (xs ++ ys) b where
  whole rest := by
    rw [List.append_assoc, opens, head.whole]
    exact (goes _).trans (tail.whole rest)
  cut front inside other := by
    rw [opens]
    rcases Classical.em (xs <+: front) with ⟨more, rfl⟩ | early
    · rw [List.prefix_append_right_inj] at inside
      rw [head.whole]
      exact (goes more).trans (tail.cut more inside fun same => other (congrArg (xs ++ ·) same))
    · have within : front <+: xs :=
        (List.prefix_or_prefix_of_prefix inside (List.prefix_append xs ys)).resolve_right early
      rw [head.cut front within fun same => early (same ▸ List.prefix_refl _)]
      rfl

theorem done (b : β) : ReadsBack (fun rest => .ok (b, rest)) [] b where
  whole _ := rfl
  cut _ inside other := absurd (List.prefix_nil.mp inside) other

theorem finish (head : ReadsBack first xs a) (opens : ∀ bytes, reader bytes = first bytes >>= after)
    (goes : ∀ rest, after (a, rest) = .ok (b, rest)) : ReadsBack reader xs b :=
  List.append_nil xs ▸ head.chain (done b) opens goes

theorem as (head : ReadsBack first xs a) (f : α → β) : ReadsBack (first.as f) xs (f a) :=
  head.finish (fun _ => rfl) (fun _ => rfl)

end ReadsBack

/-! Numbers and tokens. -/

theorem takeBack (data : Bytes) : ReadsBack (take data.length) data data where
  whole rest := by simp [take]
  cut front inside other := by
    have fewer : front.length < data.length :=
      Nat.lt_of_le_of_ne inside.length_le fun same => other (inside.eq_of_length same)
    have none : front.take data.length = front := List.take_of_length_le (Nat.le_of_lt fewer)
    simp [take, none, fewer]

theorem bigEndianLength (width n : Nat) : (bigEndian width n).length = width := by
  induction width generalizing n with
  | zero => rfl
  | succ width ih => rw [bigEndian, List.length_append, ih, List.length_singleton]

theorem ofBigEndianBigEndian {width n : Nat} (fits : n < 256 ^ width) :
    ofBigEndian (bigEndian width n) = n := by
  induction width generalizing n with
  | zero =>
    have zero : n = 0 := by simpa using fits
    exact zero.symm
  | succ width ih =>
    have fewer : n / 256 < 256 ^ width := by
      rw [Nat.pow_succ] at fits
      omega
    have front := ih fewer
    unfold ofBigEndian at front ⊢
    rw [bigEndian, List.foldl_append, front, List.foldl_cons, List.foldl_nil, UInt8.toNat_ofNat']
    omega

theorem numberBack {width n : Nat} (fits : n < 256 ^ width) :
    ReadsBack (number width) (bigEndian width n) n := by
  have digits := (takeBack (bigEndian width n)).as ofBigEndian
  rwa [bigEndianLength, ofBigEndianBigEndian fits] at digits

theorem payloadBack {width : Nat} {data : Bytes} (fits : data.length < 256 ^ width) :
    ReadsBack (payload width) (bigEndian width data.length ++ data) data :=
  (numberBack fits).chain (takeBack data) (fun _ => rfl) (fun _ => rfl)

theorem tokenBack {marker : UInt8} {bytes : Bytes} {t : Token}
    (after : ReadsBack (afterMarker marker.toNat) bytes t) :
    ReadsBack token (marker :: bytes) t where
  whole := after.whole
  cut front inside other := by
    cases front with
    | nil => rfl
    | cons byte front =>
      obtain ⟨rfl, within⟩ := List.cons_prefix_cons.mp inside
      exact after.cut front within fun same => other (congrArg _ same)

theorem smallBack {base n : Nat} {data : Bytes} {t : Token} (fits : base + n < 256)
    (after : ReadsBack (afterMarker (base + n)) data t) :
    ReadsBack token (UInt8.ofNat (base + n) :: data) t := by
  have same : (UInt8.ofNat (base + n)).toNat = base + n := by
    rw [UInt8.toNat_ofNat', Nat.mod_eq_of_lt fits]
  exact tokenBack (same.symm ▸ after)

theorem countBack {marker : UInt8} {width n : Nat} {head : Nat → Token}
    (opens : afterMarker marker.toNat = (number width).as head) (fits : n < 256 ^ width) :
    ReadsBack token (marker :: bigEndian width n) (head n) :=
  tokenBack (opens ▸ (numberBack fits).as head)

theorem sizedBack {marker : UInt8} {width : Nat} {data : Bytes} {head : Bytes → Token}
    (opens : afterMarker marker.toNat = (payload width).as head)
    (fits : data.length < 256 ^ width) :
    ReadsBack token ((marker :: bigEndian width data.length) ++ data) (head data) :=
  tokenBack (opens ▸ (payloadBack fits).as head)

theorem smallTextBack {data : Bytes} (fits : data.length < 0x20) :
    ReadsBack token (UInt8.ofNat (0xa0 + data.length) :: data) (.text data) := by
  have opens : afterMarker (0xa0 + data.length) = (take data.length).as Token.text := by
    unfold afterMarker
    rw [if_neg (by omega), if_neg (by omega), if_neg (by omega), if_pos (by omega),
      Nat.add_sub_cancel_left]
  exact smallBack (by omega) (opens ▸ (takeBack data).as Token.text)

theorem textHeadBack {data : Bytes} (short : data.length < 2 ^ 32) :
    ReadsBack token (textHead data.length ++ data) (.text data) := by
  unfold textHead
  split
  · exact smallTextBack (by omega)
  · split
    · exact sizedBack rfl (by omega)
    · split
      · exact sizedBack rfl (by omega)
      · exact sizedBack rfl (by omega)

theorem smallArrayBack {n : Nat} (fits : n < 0x10) :
    ReadsBack token [UInt8.ofNat (0x90 + n)] (.array n) := by
  have opens : afterMarker (0x90 + n) = fun rest => .ok (Token.array n, rest) := by
    unfold afterMarker
    rw [if_neg (by omega), if_neg (by omega), if_pos (by omega), Nat.add_sub_cancel_left]
  exact smallBack (by omega) (opens ▸ ReadsBack.done (Token.array n))

theorem arrayHeadBack {n : Nat} (short : n < 2 ^ 32) :
    ReadsBack token (arrayHead n) (.array n) := by
  unfold arrayHead
  split
  · exact smallArrayBack (by omega)
  · split
    · exact countBack rfl (by omega)
    · exact countBack rfl (by omega)

theorem smallMapBack {n : Nat} (fits : n < 0x10) :
    ReadsBack token [UInt8.ofNat (0x80 + n)] (.map n) := by
  have opens : afterMarker (0x80 + n) = fun rest => .ok (Token.map n, rest) := by
    unfold afterMarker
    rw [if_neg (by omega), if_pos (by omega), Nat.add_sub_cancel_left]
  exact smallBack (by omega) (opens ▸ ReadsBack.done (Token.map n))

theorem mapHeadBack {n : Nat} (short : n < 2 ^ 32) : ReadsBack token (mapHead n) (.map n) := by
  unfold mapHead
  split
  · exact smallMapBack (by omega)
  · split
    · exact countBack rfl (by omega)
    · exact countBack rfl (by omega)

/-! Texts, lists and maps. -/

def Short (text : String) : Prop := text.utf8ByteSize < 2 ^ 32

instance (text : String) : Decidable (Short text) :=
  inferInstanceAs (Decidable (text.utf8ByteSize < 2 ^ 32))

theorem fromUTF8Utf8 (value : String) : String.fromUTF8? ⟨(utf8 value).toArray⟩ = some value := by
  have same : (⟨(utf8 value).toArray⟩ : ByteArray) = value.toByteArray := rfl
  unfold String.fromUTF8?
  rw [same, dif_pos value.isValidUTF8]
  rfl

theorem utf8Injective {a b : String} (same : utf8 a = utf8 b) : a = b := by
  have read := fromUTF8Utf8 a
  rw [same, fromUTF8Utf8 b] at read
  exact (Option.some.inj read).symm

theorem textToken {value : String} (short : Short value) :
    ReadsBack token (text value) (.text (utf8 value)) :=
  textHeadBack short

theorem textBack {value : String} (short : Short value) :
    ReadsBack string (text value) value :=
  (textToken short).finish (fun _ => rfl) fun _ => by simp only [fromUTF8Utf8]

theorem repeatedBack {reader : Reader α} {write : α → Bytes} {values : List α}
    (each : ∀ value ∈ values, ReadsBack reader (write value) value) :
    ReadsBack (repeated reader values.length) (values.flatMap write) values := by
  induction values with
  | nil => exact ReadsBack.done []
  | cons value rest ih =>
    obtain ⟨here, later⟩ := List.forall_mem_cons.mp each
    exact here.chain ((ih later).as (value :: ·)) (fun _ => rfl) (fun _ => rfl)

theorem arrayBack {reader : Reader α} {write : α → Bytes} {values : List α}
    (short : values.length < 2 ^ 32)
    (each : ∀ value ∈ values, ReadsBack reader (write value) value) :
    ReadsBack (list reader) (array (values.map write)) values := by
  have head := arrayHeadBack short
  rw [array, List.length_map, ← List.flatMap_def]
  exact head.chain (repeatedBack each) (fun _ => rfl) (fun _ => rfl)

theorem textsBack {values : List String} (short : values.length < 2 ^ 32)
    (each : ∀ value ∈ values, Short value) : ReadsBack (list string) (texts values) values :=
  arrayBack short fun value mem => textBack (each value mem)

theorem entryBack {key value : String} (shortKey : Short key) (shortValue : Short value) :
    ReadsBack entry (text key ++ text value) (key, value) :=
  (textBack shortKey).chain ((textBack shortValue).as (key, ·)) (fun _ => rfl) (fun _ => rfl)

end OpNet.Pack

namespace OpNet.Ascending

section
variable {κ ν : Type} [Ord κ] [Std.OrientedOrd κ]

theorem putLast {key : κ} {value : ν} {map : List (κ × ν)}
    (greatest : ∀ entry ∈ map, compare entry.1 key = .lt) :
    put key value map = map ++ [(key, value)] := by
  induction map with
  | nil => rfl
  | cons entry rest ih =>
    obtain ⟨here, later⟩ := List.forall_mem_cons.mp greatest
    have above : compare key entry.1 = .gt := Std.OrientedCmp.gt_of_lt here
    rw [put, above, List.cons_append]
    exact congrArg _ (ih later)

theorem ofPairsSorted {entries : List (κ × ν)} (sorted : Sorted (entries.map Prod.fst)) :
    ofPairs entries = entries := by
  induction entries using List.reverseRecOn with
  | nil => rfl
  | append_singleton front entry ih =>
    rw [List.map_append, Sorted, List.pairwise_append] at sorted
    obtain ⟨before, _, across⟩ := sorted
    have same := ih before
    unfold ofPairs at same ⊢
    rw [List.foldl_append, same, List.foldl_cons, List.foldl_nil]
    exact putLast fun other mem => across other.1 (List.mem_map_of_mem mem) entry.1 (by simp)

end

end OpNet.Ascending

namespace OpNet.Pack

theorem argsBack {entries : List (String × String)} (short : entries.length < 2 ^ 32)
    (each : ∀ entry ∈ entries, Short entry.1 ∧ Short entry.2)
    (sorted : Ascending.Sorted (entries.map Prod.fst)) :
    ReadsBack textMap (args entries) entries := by
  have head := mapHeadBack short
  have members := (repeatedBack fun pair mem =>
    entryBack (each pair mem).1 (each pair mem).2).as Ascending.ofPairs
  rw [Ascending.ofPairsSorted sorted] at members
  rw [args, map, List.length_map, List.flatMap_map]
  exact head.chain members (fun _ => rfl) (fun _ => rfl)

end OpNet.Pack
