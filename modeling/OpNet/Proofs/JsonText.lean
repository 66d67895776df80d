import OpNet.Trace.Json
import Mathlib.Data.List.Forall2

/-!
Which traces are written as JSON. The grammar is the standard one, a constructor for each rule, and
says what a text stands for. Main statement: a trace is a JSON text, and stands for its records,
exactly when no text in it holds a control character that has no escape here.
-/
namespace OpNet.Trace.Json

/-! The grammar. -/

/-- A string value is a list of UTF-16 code units, for an escape may spell half of a pair. -/
def units (c : Char) : List Nat :=
  if c.toNat < 0x10000 then [c.toNat]
  else [0xD800 + (c.toNat - 0x10000) / 0x400, 0xDC00 + (c.toNat - 0x10000) % 0x400]

inductive Value
  | null
  | boolean (b : Bool)
  | number (spelling : List Char)
  | string (units : List Nat)
  | array (items : List Value)
  | object (members : List (List Nat × Value))

def Blank (cs : List Char) : Prop := ∀ c ∈ cs, c ∈ [' ', '\t', '\n', '\r']

-- Named, for the search for an instance may find `Fintype Char` and go through all characters.
instance : DecidablePred Blank := fun cs =>
  List.decidableBAll (fun c => c ∈ [' ', '\t', '\n', '\r']) cs

inductive Whole : List Char → Prop
  | zero : Whole ['0']
  | positive {d : Char} {ds : List Char} (digit : d.isDigit = true) (leading : d ≠ '0')
      (digits : ∀ c ∈ ds, c.isDigit = true) : Whole (d :: ds)

inductive Fraction : List Char → Prop
  | none : Fraction []
  | some {ds : List Char} (nonempty : ds ≠ []) (digits : ∀ c ∈ ds, c.isDigit = true) :
      Fraction ('.' :: ds)

inductive Exponent : List Char → Prop
  | none : Exponent []
  | some {e : Char} {sign ds : List Char} (letter : e ∈ ['e', 'E'])
      (signs : sign ∈ [[], ['+'], ['-']]) (nonempty : ds ≠ [])
      (digits : ∀ c ∈ ds, c.isDigit = true) : Exponent (e :: sign ++ ds)

inductive Numeral : List Char → Prop
  | parts {sign ds fraction power : List Char} (signs : sign ∈ [[], ['-']]) (whole : Whole ds)
      (decimals : Fraction fraction) (exponent : Exponent power) :
      Numeral (sign ++ ds ++ fraction ++ power)

def escapes : List (Char × Char) :=
  [('"', '"'), ('\\', '\\'), ('/', '/'), ('b', '\x08'), ('f', '\x0c'), ('n', '\n'), ('r', '\r'),
   ('t', '\t')]

def isHex (c : Char) : Bool :=
  c.isDigit || ('a' ≤ c && c ≤ 'f') || ('A' ≤ c && c ≤ 'F')

def hexValue (c : Char) : Nat :=
  if c.isDigit then c.toNat - '0'.toNat
  else if 'a' ≤ c then c.toNat - 'a'.toNat + 10
  else c.toNat - 'A'.toNat + 10

inductive Character : List Char → List Nat → Prop
  | plain {c : Char} (visible : 0x20 ≤ c.toNat) (quote : c ≠ '"') (backslash : c ≠ '\\') :
      Character [c] (units c)
  | escape {e c : Char} (known : (e, c) ∈ escapes) : Character ['\\', e] (units c)
  | code {hex : List Char} (four : hex.length = 4) (digits : ∀ c ∈ hex, isHex c = true) :
      Character ('\\' :: 'u' :: hex) [hex.foldl (fun n c => 16 * n + hexValue c) 0]

inductive Characters : List Char → List Nat → Prop
  | none : Characters [] []
  | next {cs rest : List Char} {us vs : List Nat} (here : Character cs us)
      (later : Characters rest vs) : Characters (cs ++ rest) (us ++ vs)

inductive Phrase
  | value (v : Value)
  | member (m : List Nat × Value)
  | separated (phrases : List Phrase)

/-- Blanks stand beside brackets, colons and commas: before and after each item or member, and
within a member around its colon. -/
inductive Spells : List Char → Phrase → Prop
  | null : Spells "null".toList (.value .null)
  | true : Spells "true".toList (.value (.boolean Bool.true))
  | false : Spells "false".toList (.value (.boolean Bool.false))
  | number {cs : List Char} (numeral : Numeral cs) : Spells cs (.value (.number cs))
  | string {cs : List Char} {us : List Nat} (chars : Characters cs us) :
      Spells ('"' :: cs ++ ['"']) (.value (.string us))
  | array {cs : List Char} {vs : List Value} (items : Spells cs (.separated (vs.map .value))) :
      Spells ('[' :: cs ++ [']']) (.value (.array vs))
  | object {cs : List Char} {ms : List (List Nat × Value)}
      (members : Spells cs (.separated (ms.map .member))) :
      Spells ('\x7b' :: cs ++ ['\x7d']) (.value (.object ms))
  | member {name before after cs : List Char} {us : List Nat} {v : Value}
      (chars : Characters name us) (left : Blank before) (right : Blank after)
      (value : Spells cs (.value v)) :
      Spells ('"' :: name ++ '"' :: before ++ ':' :: after ++ cs) (.member (us, v))
  | none {blank : List Char} (space : Blank blank) : Spells blank (.separated [])
  | last {before cs after : List Char} {p : Phrase} (left : Blank before) (item : Spells cs p)
      (right : Blank after) : Spells (before ++ cs ++ after) (.separated [p])
  | next {before cs after rest : List Char} {p q : Phrase} {ps : List Phrase}
      (left : Blank before) (item : Spells cs p) (right : Blank after)
      (later : Spells rest (.separated (q :: ps))) :
      Spells (before ++ cs ++ after ++ ',' :: rest) (.separated (p :: q :: ps))

inductive Denotes : List Char → Value → Prop
  | value {before cs after : List Char} {v : Value} (left : Blank before)
      (spells : Spells cs (.value v)) (right : Blank after) : Denotes (before ++ cs ++ after) v

/-! What a text may hold. -/

def Allowed (c : Char) : Prop := 0x20 ≤ c.toNat ∨ c ∈ ['\t', '\n', '\r']

def AllAllowed (cs : List Char) : Prop := ∀ c ∈ cs, Allowed c

theorem allAllowedNil : AllAllowed [] := List.forall_mem_nil _

theorem allAllowedCons {c : Char} {cs : List Char} :
    AllAllowed (c :: cs) ↔ Allowed c ∧ AllAllowed cs := List.forall_mem_cons

theorem allAllowedAppend {cs ds : List Char} :
    AllAllowed (cs ++ ds) ↔ AllAllowed cs ∧ AllAllowed ds := List.forall_mem_append

instance : DecidablePred Allowed := fun c => by unfold Allowed; infer_instance

instance : DecidablePred AllAllowed := List.decidableBAll Allowed

theorem allowedFrom {c : Char} (low : Char) (visible : 0x20 ≤ low.toNat) (above : low ≤ c) :
    Allowed c :=
  .inl (Nat.le_trans visible above)

theorem allowedDigit {c : Char} (digit : c.isDigit = true) : Allowed c := by
  simp only [Char.isDigit, Bool.and_eq_true, decide_eq_true_eq] at digit
  exact allowedFrom '0' (by decide) digit.1

theorem allowedDigits {ds : List Char} (digits : ∀ c ∈ ds, c.isDigit = true) : AllAllowed ds :=
  fun c mem => allowedDigit (digits c mem)

theorem allowedHex {hex : List Char} (digits : ∀ c ∈ hex, isHex c = true) : AllAllowed hex := by
  intro c mem
  have digit := digits c mem
  simp only [isHex, Bool.or_eq_true, Bool.and_eq_true, decide_eq_true_eq] at digit
  rcases digit with (digit | ⟨low, _⟩) | ⟨low, _⟩
  · exact allowedDigit digit
  · exact allowedFrom 'a' (by decide) low
  · exact allowedFrom 'A' (by decide) low

theorem allowedBlank {cs : List Char} (blank : Blank cs) : AllAllowed cs := by
  intro c mem
  have known : AllAllowed [' ', '\t', '\n', '\r'] := by decide
  exact known c (blank c mem)

theorem allowedWhole {cs : List Char} (whole : Whole cs) : AllAllowed cs := by
  cases whole with
  | zero => decide
  | positive digit _ digits => exact allowedDigits (List.forall_mem_cons.mpr ⟨digit, digits⟩)

theorem allowedFraction {cs : List Char} (fraction : Fraction cs) : AllAllowed cs := by
  cases fraction with
  | none => exact allAllowedNil
  | some _ digits => exact allAllowedCons.mpr ⟨by decide, allowedDigits digits⟩

theorem allowedExponent {cs : List Char} (exponent : Exponent cs) : AllAllowed cs := by
  cases exponent with
  | none => exact allAllowedNil
  | some letter signs _ digits =>
    have letters : AllAllowed ['e', 'E'] := by decide
    have known : ∀ sign ∈ [[], ['+'], ['-']], AllAllowed sign := by decide
    exact allAllowedAppend.mpr
      ⟨allAllowedCons.mpr ⟨letters _ letter, known _ signs⟩, allowedDigits digits⟩

theorem allowedNumeral {cs : List Char} (numeral : Numeral cs) : AllAllowed cs := by
  cases numeral with
  | parts signs whole decimals exponent =>
    have known : ∀ sign ∈ [[], ['-']], AllAllowed sign := by decide
    simp only [allAllowedAppend]
    exact ⟨⟨⟨known _ signs, allowedWhole whole⟩, allowedFraction decimals⟩,
      allowedExponent exponent⟩

theorem allowedCharacter {cs : List Char} {us : List Nat} (spelled : Character cs us) :
    AllAllowed cs := by
  cases spelled with
  | plain visible => exact allAllowedCons.mpr ⟨.inl visible, allAllowedNil⟩
  | escape known =>
    have letters : AllAllowed (escapes.map Prod.fst) := by decide
    exact allAllowedCons.mpr ⟨by decide,
      allAllowedCons.mpr ⟨letters _ (List.mem_map_of_mem known), allAllowedNil⟩⟩
  | code _ digits =>
    exact allAllowedCons.mpr ⟨by decide, allAllowedCons.mpr ⟨by decide, allowedHex digits⟩⟩

theorem allowedCharacters {cs : List Char} {us : List Nat} (spelled : Characters cs us) :
    AllAllowed cs := by
  induction spelled with
  | none => exact allAllowedNil
  | next here _ ih => exact allAllowedAppend.mpr ⟨allowedCharacter here, ih⟩

theorem allowedSpells {cs : List Char} {phrase : Phrase} (spells : Spells cs phrase) :
    AllAllowed cs := by
  have marks : AllAllowed ['"', '[', ']', '\x7b', '\x7d', ':', ','] := by decide
  simp only [allAllowedCons] at marks
  induction spells with
  | null | true | false => decide
  | number numeral => exact allowedNumeral numeral
  | string chars =>
    simp [allAllowedAppend, allAllowedCons, marks, allowedCharacters chars]
  | array _ ih | object _ ih =>
    simp [allAllowedAppend, allAllowedCons, marks, ih]
  | member chars left right _ ih =>
    simp [allAllowedAppend, allAllowedCons, marks, allowedCharacters chars, allowedBlank left,
      allowedBlank right, ih]
  | none space => exact allowedBlank space
  | last left _ right ih => simp [allAllowedAppend, allowedBlank left, allowedBlank right, ih]
  | next left _ right _ one rest =>
    simp [allAllowedAppend, allAllowedCons, marks, allowedBlank left, allowedBlank right, one,
      rest]

theorem allowedDenotes {cs : List Char} {v : Value} (text : Denotes cs v) : AllAllowed cs := by
  cases text with
  | value left spells right =>
    simp [allAllowedAppend, allowedBlank left, allowedBlank right, allowedSpells spells]

/-! What is written. -/

def texts : Event → List String
  | .passStart rule _ | .passEnd rule _ _ _ => [rule]
  | .rewriteFailed _ _ reason => [reason]
  | .custom name data => [name, data]
  | .matchFound .. | .matchApplied .. | .matchSkipped .. | .searchStats .. => []

def Plain (text : String) : Prop := AllAllowed text.toList

instance : DecidablePred Plain := fun text => inferInstanceAs (Decidable (AllAllowed text.toList))

def PlainRecord (r : Record) : Prop := ∀ text ∈ texts r.event, Plain text

def textUnits (text : String) : List Nat := text.toList.flatMap units

def textValue (text : String) : Value := .string (textUnits text)

def numberValue (n : Nat) : Value := .number (number n)

def numbersValue (ns : List Nat) : Value := .array (ns.map numberValue)

def eventFields : Event → List (String × Value)
  | .passStart rule strategy =>
    [("transform", textValue rule), ("strategy", textValue strategy.name)]
  | .passEnd rule applied skipped success =>
    [("transform", textValue rule), ("applied", numberValue applied),
     ("skipped", numberValue skipped), ("success", .boolean success)]
  | .matchFound index nodes | .matchApplied index nodes =>
    [("index", numberValue index), ("nodes", numbersValue nodes)]
  | .matchSkipped index nodes inactive =>
    [("index", numberValue index), ("nodes", numbersValue nodes),
     ("inactive", numberValue inactive)]
  | .rewriteFailed index nodes reason =>
    [("index", numberValue index), ("nodes", numbersValue nodes), ("reason", textValue reason)]
  | .searchStats stats =>
    [("expansions", numberValue stats.expansions), ("candidates_tried", numberValue stats.tried),
     ("candidates_accepted", numberValue stats.accepted)]
  | .custom name data => [("name", textValue name), ("data", textValue data)]

def fields (r : Record) : List (String × Value) :=
  [("id", numberValue r.id), ("pass", numberValue r.pass),
   ("timestamp_ns", numberValue r.timestamp), ("type", textValue r.event.kind)] ++
    eventFields r.event

def recordValue (r : Record) : Value :=
  .object ((fields r).map fun field => (textUnits field.1, field.2))

theorem blankNone : Blank [] := List.forall_mem_nil _

theorem wholeDigits {n : Nat} (positive : 0 < n) :
    ∃ d ds, Nat.toDigits 10 n = d :: ds ∧ d.isDigit = true ∧ d ≠ '0' ∧
      ∀ c ∈ ds, c.isDigit = true := by
  induction n using Nat.strongRecOn with
  | ind n ih =>
    by_cases small : n < 10
    · have single : ∀ n < 10, 0 < n → n.digitChar.isDigit = true ∧ n.digitChar ≠ '0' := by decide
      obtain ⟨digit, leading⟩ := single n small positive
      exact ⟨n.digitChar, [], Nat.toDigits_of_lt_base small, digit, leading, by simp⟩
    · obtain ⟨d, ds, same, digit, leading, digits⟩ := ih (n / 10) (by omega) (by omega)
      have last : ∀ n < 10, n.digitChar.isDigit = true := by decide
      refine ⟨d, ds ++ [(n % 10).digitChar], ?_, digit, leading, fun c mem => ?_⟩
      · rw [Nat.toDigits_of_base_le (by decide) (by omega), same, List.cons_append]
      · rcases List.mem_append.mp mem with mem | mem
        · exact digits c mem
        · rw [List.mem_singleton.mp mem]
          exact last _ (Nat.mod_lt n (by decide))

theorem numberNumeral (n : Nat) : Numeral (number n) := by
  have whole : Whole (number n) := by
    rcases Nat.eq_zero_or_pos n with rfl | positive
    · exact .zero
    · obtain ⟨d, ds, same, digit, leading, digits⟩ := wholeDigits positive
      simp only [number, toString, Nat.repr, String.toList_ofList, same]
      exact .positive digit leading digits
  have unsigned : [] ∈ [[], ['-']] := List.mem_cons_self
  simpa using Numeral.parts unsigned whole .none .none

theorem numberSpells (n : Nat) : Spells (number n) (.value (numberValue n)) :=
  .number (numberNumeral n)

theorem escapedCharacter {c : Char} (allowed : Allowed c) :
    Character (escapedChar c) (units c) := by
  unfold escapedChar
  split
  · exact .escape (by decide)
  · exact .escape (by decide)
  · exact .escape (by decide)
  · exact .escape (by decide)
  · exact .escape (by decide)
  · next backslash quote feed carriage tab =>
    refine .plain ?_ quote backslash
    refine allowed.resolve_right fun control => ?_
    simp only [List.mem_cons, List.not_mem_nil, or_false] at control
    rcases control with same | same | same
    · exact tab same
    · exact feed same
    · exact carriage same

theorem escapedCharacters {cs : List Char} (allowed : AllAllowed cs) :
    Characters (escaped cs) (cs.flatMap units) := by
  induction cs with
  | nil => exact .none
  | cons c rest ih =>
    obtain ⟨here, later⟩ := allAllowedCons.mp allowed
    exact .next (escapedCharacter here) (ih later)

theorem textSpells {value : String} (plain : Plain value) :
    Spells (text value) (.value (textValue value)) := .string (escapedCharacters plain)

theorem booleanSpells (b : Bool) : Spells (boolean b) (.value (.boolean b)) := by
  cases b with
  | false => exact .false
  | true => exact .true

theorem joinedSpells {before gap after : List Char} (left : Blank before) (between : Blank gap)
    (right : Blank after) {items : List (List Char)} {phrases : List Phrase}
    (each : List.Forall₂ Spells items phrases) :
    Spells (before ++ joined (',' :: gap) items ++ after) (.separated phrases) := by
  induction each generalizing before with
  | nil =>
    rw [joined, List.intercalate_nil, List.append_nil]
    exact .none (List.forall_mem_append.mpr ⟨left, right⟩)
  | @cons cs p items phrases here later ih =>
    cases later with
    | nil => simpa [joined] using Spells.last left here right
    | @cons ds q items phrases there later =>
      have rest := ih between
      simpa [joined, List.append_assoc] using Spells.next left here blankNone rest

theorem memberSpells {name : String} {cs : List Char} {v : Value} (plain : Plain name)
    (value : Spells cs (.value v)) :
    Spells (text name ++ ':' :: cs) (.member (textUnits name, v)) := by
  simpa [text, textUnits] using Spells.member (escapedCharacters plain) blankNone blankNone value

structure Writes (member : String × List Char) (field : String × Value) : Prop where
  same : member.1 = field.1
  spells : Spells member.2 (.value field.2)

theorem objectSpells {members : List (String × List Char)} {fields : List (String × Value)}
    (names : ∀ member ∈ members, Plain member.1) (each : List.Forall₂ Writes members fields) :
    Spells (object members)
      (.value (.object (fields.map fun field => (textUnits field.1, field.2)))) := by
  have inner : List.Forall₂ Spells (members.map fun m => text m.1 ++ ':' :: m.2)
      ((fields.map fun field => (textUnits field.1, field.2)).map .member) := by
    rw [List.map_map, List.forall₂_map_left_iff, List.forall₂_map_right_iff]
    refine (List.forall₂_and_left _ _).mpr ⟨names, each⟩ |>.imp fun member field both => ?_
    simpa only [Function.comp, both.2.same] using memberSpells both.1 both.2.spells
  simpa [object] using Spells.object (joinedSpells blankNone blankNone blankNone inner)

theorem eachSpells {α : Type} {items : List α} {write : α → List Char} {value : α → Value}
    (each : ∀ a ∈ items, Spells (write a) (.value (value a))) :
    List.Forall₂ Spells (items.map write) ((items.map value).map .value) := by
  rw [List.map_map, List.forall₂_map_left_iff, List.forall₂_map_right_iff, List.forall₂_same]
  exact each

theorem numbersSpells (ns : List Nat) : Spells (numbers ns) (.value (numbersValue ns)) := by
  have inner := eachSpells fun n (_ : n ∈ ns) => numberSpells n
  have joined := joinedSpells blankNone blankNone blankNone inner
  simpa [numbers, numbersValue] using Spells.array joined

theorem plainStrategy (strategy : Strategy) : Plain strategy.name := by
  cases strategy <;> decide

theorem plainKind (event : Event) : Plain event.kind := by
  cases event <;> simp only [Event.kind] <;> decide

theorem plainNames (r : Record) : ∀ member ∈ members r, Plain member.1 := by
  have front : Plain "id" ∧ Plain "pass" ∧ Plain "timestamp_ns" ∧ Plain "type" := by decide
  have rest : ∀ member ∈ eventMembers r.event, Plain member.1 := by
    cases r.event <;> simp only [eventMembers, List.forall_mem_cons] <;> decide
  simp only [members, List.forall_mem_append, List.forall_mem_cons]
  exact ⟨⟨front.1, front.2.1, front.2.2.1, front.2.2.2, List.forall_mem_nil _⟩, rest⟩

theorem eventWrites {event : Event} (given : ∀ text ∈ texts event, Plain text) :
    List.Forall₂ Writes (eventMembers event) (eventFields event) := by
  cases event with
  | passStart rule strategy =>
    have rule := textSpells (given rule List.mem_cons_self)
    exact .cons ⟨rfl, rule⟩ (.cons ⟨rfl, textSpells (plainStrategy strategy)⟩ .nil)
  | passEnd rule applied skipped success =>
    have rule := textSpells (given rule List.mem_cons_self)
    exact .cons ⟨rfl, rule⟩ (.cons ⟨rfl, numberSpells applied⟩
      (.cons ⟨rfl, numberSpells skipped⟩ (.cons ⟨rfl, booleanSpells success⟩ .nil)))
  | matchFound index nodes | matchApplied index nodes =>
    exact .cons ⟨rfl, numberSpells index⟩ (.cons ⟨rfl, numbersSpells nodes⟩ .nil)
  | matchSkipped index nodes inactive =>
    exact .cons ⟨rfl, numberSpells index⟩ (.cons ⟨rfl, numbersSpells nodes⟩
      (.cons ⟨rfl, numberSpells inactive⟩ .nil))
  | rewriteFailed index nodes reason =>
    have reason := textSpells (given reason List.mem_cons_self)
    exact .cons ⟨rfl, numberSpells index⟩ (.cons ⟨rfl, numbersSpells nodes⟩
      (.cons ⟨rfl, reason⟩ .nil))
  | searchStats stats =>
    exact .cons ⟨rfl, numberSpells stats.expansions⟩ (.cons ⟨rfl, numberSpells stats.tried⟩
      (.cons ⟨rfl, numberSpells stats.accepted⟩ .nil))
  | custom name data =>
    have name := textSpells (given name List.mem_cons_self)
    have data := textSpells (given data (List.mem_cons_of_mem _ List.mem_cons_self))
    exact .cons ⟨rfl, name⟩ (.cons ⟨rfl, data⟩ .nil)

theorem recordSpells {r : Record} (plain : PlainRecord r) :
    Spells (recordChars r) (.value (recordValue r)) := by
  have each : List.Forall₂ Writes (members r) (fields r) :=
    .cons ⟨rfl, numberSpells r.id⟩ (.cons ⟨rfl, numberSpells r.pass⟩
      (.cons ⟨rfl, numberSpells r.timestamp⟩
        (.cons ⟨rfl, textSpells (plainKind r.event)⟩ (eventWrites plain))))
  exact objectSpells (plainNames r) each

/-! What is not written. -/

theorem allowedPieces {separator : List Char} {items : List (List Char)}
    (allowed : AllAllowed (joined separator items)) : ∀ item ∈ items, AllAllowed item := by
  induction items with
  | nil => simp
  | cons item rest ih =>
    cases rest with
    | nil => simpa [joined] using allowed
    | cons next rest =>
      rw [joined, List.intercalate_cons_cons, allAllowedAppend, allAllowedAppend] at allowed
      exact List.forall_mem_cons.mpr ⟨allowed.1.1, ih allowed.2⟩

theorem allowedMembers {members : List (String × List Char)}
    (allowed : AllAllowed (object members)) : ∀ member ∈ members, AllAllowed member.2 := by
  intro member mem
  simp only [object, allAllowedAppend, List.cons_append, allAllowedCons] at allowed
  have piece := allowedPieces allowed.2.1 _ (List.mem_map_of_mem mem)
  exact (allAllowedCons.mp (allAllowedAppend.mp piece).2).2

theorem allowedOfEscaped {c : Char} (allowed : AllAllowed (escapedChar c)) : Allowed c := by
  unfold escapedChar at allowed
  split at allowed
  · decide
  · decide
  · decide
  · decide
  · decide
  · exact allowed c List.mem_cons_self

theorem plainOfText {value : String} (allowed : AllAllowed (text value)) : Plain value := by
  simp only [text, List.cons_append, allAllowedCons, allAllowedAppend] at allowed
  intro c mem
  exact allowedOfEscaped fun d there =>
    allowed.2.1 d (List.mem_flatMap.mpr ⟨c, mem, there⟩)

theorem textsWritten {event : Event} {value : String} (mem : value ∈ texts event) :
    ∃ name, (name, text value) ∈ eventMembers event := by
  cases event with
  | passStart rule strategy =>
    cases List.mem_singleton.mp mem
    exact ⟨"transform", List.mem_cons_self⟩
  | passEnd rule applied skipped success =>
    cases List.mem_singleton.mp mem
    exact ⟨"transform", List.mem_cons_self⟩
  | rewriteFailed index nodes reason =>
    cases List.mem_singleton.mp mem
    exact ⟨"reason", by simp [eventMembers]⟩
  | custom name data =>
    rcases List.mem_cons.mp mem with rfl | mem
    · exact ⟨"name", List.mem_cons_self⟩
    · cases List.mem_singleton.mp mem
      exact ⟨"data", by simp [eventMembers]⟩
  | matchFound _ _ | matchApplied _ _ | matchSkipped _ _ _ | searchStats _ => cases mem

theorem plainOfRecord {r : Record} (allowed : AllAllowed (recordChars r)) : PlainRecord r := by
  intro value mem
  obtain ⟨name, written⟩ := textsWritten mem
  exact plainOfText (allowedMembers allowed _ (List.mem_append_right _ written))

theorem plainOfRecords {rs : List Record} {separator : List Char}
    (allowed : AllAllowed (joined separator (rs.map recordChars))) : ∀ r ∈ rs, PlainRecord r :=
  fun _ mem => plainOfRecord (allowedPieces allowed _ (List.mem_map_of_mem mem))

structure JsonIf (condition : Prop) (text : String) (value : Value) : Prop where
  denotes : condition → Denotes text.toList value
  only : ∀ other, Denotes text.toList other → condition

theorem arraySpells {before gap after : List Char} {rs : List Record} (left : Blank before)
    (between : Blank gap) (right : Blank after) (plain : ∀ r ∈ rs, PlainRecord r) :
    Spells ('[' :: (before ++ joined (',' :: gap) (rs.map recordChars) ++ after) ++ [']'])
      (.value (.array (rs.map recordValue))) :=
  .array (joinedSpells left between right (eachSpells fun r mem => recordSpells (plain r mem)))

theorem denotesOfSpells {cs : List Char} {v : Value} (spells : Spells cs (.value v)) :
    Denotes cs v := by
  simpa using Denotes.value blankNone spells blankNone

theorem jsonIffPlain (r : Record) (rs : List Record) :
    JsonIf (PlainRecord r) (record r) (recordValue r) ∧
      JsonIf (∀ r ∈ rs, PlainRecord r) (compact rs) (.array (rs.map recordValue)) ∧
      JsonIf (∀ r ∈ rs, PlainRecord r) (pretty rs) (.array (rs.map recordValue)) := by
  refine ⟨⟨fun plain => ?_, fun v text => ?_⟩, ⟨fun plain => ?_, fun v text => ?_⟩,
    ⟨fun plain => ?_, fun v text => ?_⟩⟩
  · rw [record, String.toList_ofList]
    exact denotesOfSpells (recordSpells plain)
  · rw [record, String.toList_ofList] at text
    exact plainOfRecord (allowedDenotes text)
  · rw [compact, String.toList_ofList]
    have spells := arraySpells blankNone blankNone blankNone plain
    exact denotesOfSpells (by simpa [compactChars] using spells)
  · rw [compact, String.toList_ofList] at text
    have allowed := allowedDenotes text
    simp only [compactChars, List.cons_append, allAllowedCons, allAllowedAppend] at allowed
    exact plainOfRecords allowed.2.1
  · rw [pretty, String.toList_ofList]
    have newline : Blank "\n".toList := by decide
    have indented : Blank "\n  ".toList := by decide
    have spells := arraySpells indented indented newline plain
    exact denotesOfSpells (by simpa [prettyChars] using spells)
  · rw [pretty, String.toList_ofList] at text
    have allowed := allowedDenotes text
    simp only [prettyChars, allAllowedAppend] at allowed
    exact plainOfRecords allowed.1.2

theorem headingRefused :
    let r : Record := { id := 0, pass := 1, timestamp := 0, event := .custom "\x01" "d" }
    ∀ v, ¬ Denotes (record r).toList v := by
  intro r v text
  rw [record, String.toList_ofList] at text
  have plain : Plain "\x01" := plainOfRecord (allowedDenotes text) _ List.mem_cons_self
  revert plain
  decide

end OpNet.Trace.Json
