import OpNet.Command.Options
import Mathlib.Data.List.Forall2

/-!
The grammar of the command line. Arguments are items from left to right: flags, options that take
the next argument as their value, whatever it is, and an input. Main statement: just the arguments
of this grammar can be read, into what their items say in any order; of all others the first item
that does not fit is reported.
-/
namespace OpNet

def Strategy.Named (text : String) (strategy : Strategy) : Prop :=
  Strategy.plain text ∈ strategy.spellings

theorem Strategy.parseIff {text : String} {strategy : Strategy} :
    Strategy.parse text = .ok strategy ↔ Named text strategy := by
  have apart : ∀ s ∈ all, ∀ spelling ∈ s.spellings,
      all.find? (fun t => t.spellings.contains spelling) = some s := by decide
  unfold Named parse
  constructor
  · intro parsed
    split at parsed
    · next found =>
      cases parsed
      simpa using List.find?_some found
    · cases parsed
  · intro named
    have listed : strategy ∈ all := by cases strategy <;> decide
    rw [apart strategy listed _ named]

theorem Strategy.namedUnique : Relator.RightUnique Named := fun _ _ _ one two =>
  Except.ok.inj ((parseIff.mpr one).symm.trans (parseIff.mpr two))

theorem Strategy.parseUnknown {text : String} {e : Error}
    (failed : Strategy.parse text = .error e) :
    (∀ strategy, ¬ Named text strategy) ∧ e = Cause.unknownStrategy text := by
  refine ⟨fun strategy named => ?_, ?_⟩
  · rw [parseIff.mpr named] at failed
    cases failed
  · unfold parse at failed
    split at failed
    · cases failed
    · exact (Except.error.inj failed).symm

namespace Command

def Flag.names : Flag → List String
  | help => ["-h", "--help"]
  | version => ["-V", "--version"]
  | list => ["--list"]
  | trace => ["--trace"]
  | json => ["--json"]

def ValueOption.names : ValueOption → List String
  | rule => ["-t", "--transform"]
  | output => ["-o", "--output"]
  | strategy => ["--strategy"]
  | maxExpansions => ["--max-expansions"]

def Dashed (arg : String) : Prop := arg.toList.head? = some '-'

def Decimal (value : String) (n : Nat) : Prop :=
  ∃ sign digits, value.toList = sign ++ digits ∧ sign ∈ [[], ['+']] ∧ digits ≠ [] ∧
    (∀ c ∈ digits, c.isDigit = true) ∧ Nat.ofDigitChars 10 digits 0 = n ∧ n < UInt64.size

inductive Item
  | flag (flag : Flag)
  | value (option : ValueOption) (value : String)
  | input (arg : String)
  deriving DecidableEq

inductive Spells : List String → List Item → Prop
  | none : Spells [] []
  | flag {arg : String} {flag : Flag} {args : List String} {items : List Item}
      (named : arg ∈ flag.names) (rest : Spells args items) :
      Spells (arg :: args) (.flag flag :: items)
  | value {arg : String} {option : ValueOption} {args : List String} {items : List Item}
      (named : arg ∈ option.names) (value : String) (rest : Spells args items) :
      Spells (arg :: value :: args) (.value option value :: items)
  | input {arg : String} {args : List String} {items : List Item}
      (plain : ¬ Dashed arg) (rest : Spells args items) :
      Spells (arg :: args) (.input arg :: items)

def Item.valueOf? (option : ValueOption) : Item → Option String
  | .value given text => if given = option then some text else none
  | _ => none

def Item.input? : Item → Option String
  | .input arg => some arg
  | _ => none

def values (option : ValueOption) (items : List Item) : List String :=
  items.filterMap (Item.valueOf? option)

def inputs (items : List Item) : List String := items.filterMap Item.input?

def LastMeant (Means : String → α → Prop) (given : List String) (last : Option α) : Prop :=
  ∃ meant, List.Forall₂ Means given meant ∧ meant.getLast? = last

def Options.has (o : Options) : Flag → Bool
  | .help => o.help
  | .version => o.version
  | .list => o.list
  | .trace => o.trace
  | .json => o.json

def Options.Holds (o : Options) (given : List String) : ValueOption → Prop
  | .rule => o.rules = given
  | .output => LastMeant Eq given o.output
  | .strategy => LastMeant Strategy.Named given o.strategy
  | .maxExpansions => LastMeant Decimal given o.maxExpansions

/-- What the items say. There is at most one input, and for flags and input no order. -/
structure Describes (items : List Item) (o : Options) : Prop where
  input : o.input.toList = inputs items
  holds : ∀ option, o.Holds (values option items) option
  flags : ∀ flag, o.has flag = true ↔ .flag flag ∈ items

/-- The next item, at the head of the arguments that are left, does not fit. -/
inductive Offends (before : List Item) : List String → Fault → Prop
  | missing {arg : String} {option : ValueOption} (named : arg ∈ option.names) :
      Offends before [arg] (.missingValue option)
  | strategy {arg value : String} (named : arg ∈ ValueOption.strategy.names)
      (strange : ∀ strategy, ¬ Strategy.Named value strategy) (later : List String) :
      Offends before (arg :: value :: later) (.failed (Cause.unknownStrategy value))
  | limit {arg value : String} (named : arg ∈ ValueOption.maxExpansions.names)
      (strange : ∀ n, ¬ Decimal value n) (later : List String) :
      Offends before (arg :: value :: later) (.invalidLimit value)
  | unknown {arg : String} (dashed : Dashed arg) (flags : ∀ flag : Flag, arg ∉ flag.names)
      (options : ∀ option : ValueOption, arg ∉ option.names) (later : List String) :
      Offends before (arg :: later) (.unknownOption arg)
  | second {arg : String} (plain : ¬ Dashed arg) (given : inputs before ≠ [])
      (later : List String) :
      Offends before (arg :: later) (.unexpectedArgument arg)

structure Reordered (items others : List Item) : Prop where
  perm : items.Perm others
  values : ∀ option, values option items = values option others

/-! Words and values. -/

def Word.Fits (arg : String) : Word → Prop
  | flag given => arg ∈ given.names
  | option given => arg ∈ given.names
  | unknown => Dashed arg ∧ (∀ flag : Flag, arg ∉ flag.names) ∧
      ∀ option : ValueOption, arg ∉ option.names
  | plain => ¬ Dashed arg

theorem flagSpelled {arg : String} {flag : Flag} (named : arg ∈ flag.names) :
    (arg, .flag flag) ∈ spellings := by
  have all : ∀ name ∈ flag.names, (name, Word.flag flag) ∈ spellings := by cases flag <;> decide
  exact all arg named

theorem optionSpelled {arg : String} {option : ValueOption} (named : arg ∈ option.names) :
    (arg, .option option) ∈ spellings := by
  have all : ∀ name ∈ option.names, (name, Word.option option) ∈ spellings := by
    cases option <;> decide
  exact all arg named

theorem spelledDashed {arg : String} {w : Word} (known : (arg, w) ∈ spellings) : Dashed arg := by
  have all : ∀ entry ∈ spellings, entry.1.toList.head? = some '-' := by decide
  exact all _ known

theorem spelledFits {arg : String} {w : Word} (known : (arg, w) ∈ spellings) : w.Fits arg := by
  have all : ∀ entry ∈ spellings, entry.2.Fits entry.1 := by
    simp [spellings, Word.Fits, Flag.names, ValueOption.names]
  exact all _ known

theorem lookupSpelled {arg : String} {w : Word} (known : (arg, w) ∈ spellings) :
    spellings.lookup arg = some w := by
  have all : ∀ entry ∈ spellings, spellings.lookup entry.1 = some entry.2 := by decide
  exact all _ known

theorem wordSpelled {arg : String} {w : Word} (known : (arg, w) ∈ spellings) : word arg = w := by
  rw [word, lookupSpelled known]

theorem wordFits (arg : String) : (word arg).Fits arg := by
  unfold word
  cases found : spellings.lookup arg with
  | some w =>
    obtain ⟨front, rest, split, _⟩ := List.lookup_eq_some_iff.mp found
    exact spelledFits (split ▸ List.mem_append_right _ List.mem_cons_self)
  | none =>
    have strange {w : Word} (known : (arg, w) ∈ spellings) : False := by
      rw [lookupSpelled known] at found
      cases found
    by_cases dashed : arg.toList.head? = some '-'
    · simp only [if_pos dashed]
      exact ⟨dashed, fun flag named => strange (flagSpelled named),
        fun option named => strange (optionSpelled named)⟩
    · simp only [if_neg dashed]
      exact dashed

theorem wordIff {arg : String} {w : Word} : word arg = w ↔ w.Fits arg := by
  have own := wordFits arg
  refine ⟨fun known => known ▸ own, fun fits => ?_⟩
  cases w with
  | flag flag => exact wordSpelled (flagSpelled fits)
  | option option => exact wordSpelled (optionSpelled fits)
  | unknown =>
    obtain ⟨dashed, flags, options⟩ := fits
    generalize word arg = given at own
    cases given with
    | flag flag => exact absurd own (flags flag)
    | option option => exact absurd own (options option)
    | unknown => rfl
    | plain => exact absurd dashed own
  | plain =>
    generalize word arg = given at own
    cases given with
    | flag flag => exact absurd (spelledDashed (flagSpelled own)) fits
    | option option => exact absurd (spelledDashed (optionSpelled own)) fits
    | unknown => exact absurd own.1 fits
    | plain => rfl

theorem digitsIff {cs : List Char} {n : Nat} : digits? cs = some n ↔
    cs ≠ [] ∧ (∀ c ∈ cs, c.isDigit = true) ∧ Nat.ofDigitChars 10 cs 0 = n := by
  cases cs with
  | nil => simp [digits?]
  | cons c cs =>
    have value : (c :: cs).foldl (fun n c => n * 10 + (c.toNat - 48)) 0 =
        Nat.ofDigitChars 10 (c :: cs) 0 := by
      rw [Nat.ofDigitChars_eq_foldl]
      simp only [Nat.mul_comm 10]
      rfl
    rw [digits?, value]
    · simp
    · simp

theorem limitIff {value : String} {n : Nat} : limit? value = some n ↔ Decimal value n := by
  unfold limit? Decimal
  simp only [Option.filter_eq_some_iff, decide_eq_true_eq]
  constructor
  · rintro ⟨read, fits⟩
    split at read
    · next rest spelled =>
      obtain ⟨nonempty, digits, same⟩ := digitsIff.mp read
      exact ⟨['+'], rest, spelled, by decide, nonempty, digits, same, fits⟩
    · obtain ⟨nonempty, digits, same⟩ := digitsIff.mp read
      exact ⟨[], _, rfl, by decide, nonempty, digits, same, fits⟩
  · rintro ⟨sign, digits, spelled, signs, nonempty, decimal, same, fits⟩
    refine ⟨?_, fits⟩
    have read := digitsIff.mpr ⟨nonempty, decimal, same⟩
    rw [spelled]
    rcases List.mem_cons.mp signs with rfl | signs
    · -- Without a sign: a digit is no plus, so nothing is taken off.
      obtain ⟨d, ds, rfl⟩ := List.exists_cons_of_ne_nil nonempty
      have plus : d ≠ '+' := fun same => by simpa [same] using decimal d List.mem_cons_self
      simpa [plus] using read
    · cases List.mem_singleton.mp signs
      exact read

theorem decimalUnique : Relator.RightUnique Decimal := fun _ _ _ one two =>
  Option.some.inj ((limitIff.mpr one).symm.trans (limitIff.mpr two))

/-! What one more item says. -/

theorem valuesNext (option : ValueOption) (items : List Item) (item : Item) :
    values option (items ++ [item]) = values option items ++ (item.valueOf? option).toList := by
  rw [values, List.filterMap_append]
  cases found : item.valueOf? option <;> simp [values, found]

theorem inputsNext (items : List Item) (item : Item) :
    inputs (items ++ [item]) = inputs items ++ item.input?.toList := by
  rw [inputs, List.filterMap_append]
  cases found : item.input? <;> simp [inputs, found]

namespace LastMeant
variable {Means : String → α → Prop} {given : List String} {last other : Option α} {value : String}

theorem concat {a : α} (before : LastMeant Means given last) (means : Means value a) :
    LastMeant Means (given ++ [value]) (some a) := by
  obtain ⟨meant, each, _⟩ := before
  exact ⟨meant ++ [a], List.rel_append each (.cons means .nil), List.getLast?_concat⟩

theorem each (meant : LastMeant Means given last) : ∀ value ∈ given, ∃ a, Means value a := by
  obtain ⟨meanings, each, _⟩ := meant
  intro value mem
  obtain ⟨i, inside, rfl⟩ := List.getElem_of_mem mem
  exact ⟨_, each.get inside (each.length_eq ▸ inside)⟩

theorem unique (single : Relator.RightUnique Means) (one : LastMeant Means given last)
    (two : LastMeant Means given other) : last = other := by
  obtain ⟨meant, each, rfl⟩ := one
  obtain ⟨meant', each', rfl⟩ := two
  rw [single.forall₂ each each']

end LastMeant

section
variable {items more : List Item} {item : Item} {o next final : Options} {fault : Fault}

theorem describesNone : Describes [] {} where
  input := rfl
  holds option := match option with
    | .rule => rfl
    | .output | .strategy | .maxExpansions => ⟨[], .nil, rfl⟩
  flags flag := by cases flag <;> simp [Options.has]

theorem hasSet (o : Options) (flag other : Flag) :
    (o.set flag).has other = true ↔ o.has other = true ∨ other = flag := by
  cases flag <;> cases other <;> simp [Options.set, Options.has]

theorem setKeeps (o : Options) (flag : Flag) : (o.set flag).input = o.input ∧
    ∀ given option, o.Holds given option → (o.set flag).Holds given option := by
  cases flag <;> exact ⟨rfl, fun _ option => by cases option <;> exact id⟩

theorem Describes.flag (describes : Describes items o) (flag : Flag) :
    Describes (items ++ [.flag flag]) (o.set flag) := by
  obtain ⟨input, holds⟩ := setKeeps o flag
  refine ⟨?_, fun option => ?_, fun other => ?_⟩
  · simpa [inputsNext, Item.input?, input] using describes.input
  · simpa [valuesNext, Item.valueOf?] using holds _ option (describes.holds option)
  · rw [hasSet, describes.flags]
    simp

inductive Assigns (o : Options) (value : String) : ValueOption → Options → Prop
  | rule : Assigns o value .rule { o with rules := o.rules ++ [value] }
  | output : Assigns o value .output { o with output := some value }
  | strategy {strategy : Strategy} (named : Strategy.Named value strategy) :
      Assigns o value .strategy { o with strategy := some strategy }
  | maxExpansions {limit : Nat} (decimal : Decimal value limit) :
      Assigns o value .maxExpansions { o with maxExpansions := some limit }

section
variable {option other : ValueOption} {value : String} {given : List String}

theorem assignIff : o.assign value option = .ok next ↔ Assigns o value option next := by
  constructor
  · intro ok
    cases option with
    | rule =>
      cases ok
      exact .rule
    | output =>
      cases ok
      exact .output
    | strategy =>
      simp only [Options.assign] at ok
      split at ok
      · next parsed =>
        cases ok
        exact .strategy (Strategy.parseIff.mp parsed)
      · cases ok
    | maxExpansions =>
      simp only [Options.assign] at ok
      split at ok
      · next read =>
        cases ok
        exact .maxExpansions (limitIff.mp read)
      · cases ok
  · intro assigns
    cases assigns with
    | rule | output => rfl
    | strategy named => simp only [Options.assign, Strategy.parseIff.mpr named]
    | maxExpansions decimal => simp only [Options.assign, limitIff.mpr decimal]

theorem Assigns.holds (assigns : Assigns o value option next) (holds : o.Holds given option) :
    next.Holds (given ++ [value]) option := by
  cases assigns with
  | rule => exact congrArg (· ++ [value]) holds
  | output => exact LastMeant.concat holds rfl
  | strategy named => exact LastMeant.concat holds named
  | maxExpansions decimal => exact LastMeant.concat holds decimal

theorem Assigns.others (assigns : Assigns o value option next) (apart : option ≠ other)
    (holds : o.Holds given other) : next.Holds given other := by
  cases assigns <;> cases other <;> first | exact holds | exact absurd rfl apart

theorem Assigns.input (assigns : Assigns o value option next) : next.input = o.input := by
  cases assigns <;> rfl

theorem Assigns.flags (assigns : Assigns o value option next) (flag : Flag) :
    next.has flag = o.has flag := by
  cases assigns <;> cases flag <;> rfl

end

theorem Describes.value {option : ValueOption} {value : String} (describes : Describes items o)
    (assigns : Assigns o value option next) : Describes (items ++ [.value option value]) next := by
  refine ⟨?_, fun other => ?_, fun flag => ?_⟩
  · simpa [inputsNext, Item.input?, assigns.input] using describes.input
  · rw [valuesNext, Item.valueOf?]
    by_cases same : option = other
    · subst same
      simpa using assigns.holds (describes.holds option)
    · simpa [same] using assigns.others same (describes.holds other)
  · rw [assigns.flags, describes.flags]
    simp

theorem Describes.place {arg : String} (describes : Describes items o)
    (ok : o.place arg = .ok next) : Describes (items ++ [.input arg]) next := by
  unfold Options.place at ok
  split at ok
  · next free =>
    cases ok
    have holds : ∀ given option, o.Holds given option →
        ({ o with input := some arg } : Options).Holds given option :=
      fun _ option => by cases option <;> exact id
    have flags : ∀ flag, ({ o with input := some arg } : Options).has flag = o.has flag :=
      fun flag => by cases flag <;> rfl
    refine ⟨?_, fun option => ?_, fun flag => ?_⟩
    · rw [inputsNext, ← describes.input, free]
      rfl
    · simpa [valuesNext, Item.valueOf?] using holds _ option (describes.holds option)
    · rw [flags, describes.flags]
      simp
  · cases ok

def Options.take (o : Options) : Item → Except Fault Options
  | .flag flag => .ok (o.set flag)
  | .value option value => o.assign value option
  | .input arg => o.place arg

theorem Describes.take (describes : Describes items o) (ok : o.take item = .ok next) :
    Describes (items ++ [item]) next := by
  cases item with
  | flag flag =>
    cases ok
    exact describes.flag flag
  | value option value => exact describes.value (assignIff.mp ok)
  | input arg => exact describes.place ok

theorem Describes.unique (one : Describes items o) (two : Describes items next) : o = next := by
  have input : o.input = next.input := by
    simpa using congrArg List.head? (one.input.trans two.input.symm)
  have rules : o.rules = next.rules := (one.holds .rule).trans (two.holds .rule).symm
  have output : o.output = next.output :=
    LastMeant.unique (fun _ _ _ left right => left.symm.trans right) (one.holds .output)
      (two.holds .output)
  have strategy : o.strategy = next.strategy :=
    LastMeant.unique Strategy.namedUnique (one.holds .strategy) (two.holds .strategy)
  have limit : o.maxExpansions = next.maxExpansions :=
    LastMeant.unique decimalUnique (one.holds .maxExpansions) (two.holds .maxExpansions)
  have flags (flag : Flag) : o.has flag = next.has flag :=
    Bool.eq_iff_iff.mpr ((one.flags flag).trans (two.flags flag).symm)
  cases o
  cases next
  simp_all only [Options.mk.injEq, true_and]
  exact ⟨flags .help, flags .version, flags .list, flags .trace, flags .json⟩

theorem Describes.takes (describes : Describes items o)
    (whole : Describes (items ++ item :: more) final) : ∃ next, o.take item = .ok next := by
  have given (option : ValueOption) (value : String) (same : item = .value option value) :
      value ∈ values option (items ++ item :: more) :=
    List.mem_filterMap.mpr ⟨item, by simp, by simp [same, Item.valueOf?]⟩
  cases item with
  | flag flag => exact ⟨_, rfl⟩
  | value option value =>
    have given := given option value rfl
    cases option with
    | rule | output => exact ⟨_, rfl⟩
    | strategy =>
      obtain ⟨strategy, named⟩ := LastMeant.each (whole.holds .strategy) value given
      exact ⟨_, assignIff.mpr (.strategy named)⟩
    | maxExpansions =>
      obtain ⟨limit, decimal⟩ := LastMeant.each (whole.holds .maxExpansions) value given
      exact ⟨_, assignIff.mpr (.maxExpansions decimal)⟩
  | input arg =>
    -- The whole has one input at most, and this is one, so none is placed yet.
    have one : (inputs (items ++ .input arg :: more)).length ≤ 1 := by
      rw [← whole.input]
      exact Option.length_toList_le
    have none : o.input = none := by
      have behind : inputs (items ++ .input arg :: more) = inputs items ++ arg :: inputs more := by
        simp [inputs, List.filterMap_append, Item.input?]
      rw [behind, ← describes.input] at one
      cases free : o.input with
      | none => rfl
      | some first => simp [free] at one
    simp only [Options.take, Options.place, none]
    exact ⟨_, rfl⟩

theorem takeAll (describes : Describes items o) :
    more.foldlM Options.take o = .ok final ↔ Describes (items ++ more) final := by
  induction more generalizing items o with
  | nil =>
    rw [List.append_nil]
    constructor
    · rintro ⟨⟩
      exact describes
    · exact fun whole => congrArg Except.ok (describes.unique whole)
  | cons item more ih =>
    rw [List.foldlM_cons, bindOk]
    constructor
    · rintro ⟨next, taken, rest⟩
      simpa using (ih (describes.take taken)).mp rest
    · intro whole
      obtain ⟨next, taken⟩ := describes.takes whole
      exact ⟨next, taken, (ih (describes.take taken)).mpr (by simpa using whole)⟩

/-! Reading. -/

theorem readSpelled {args : List String} (spells : Spells args items) (o : Options)
    (rest : List String) :
    o.read (args ++ rest) = items.foldlM Options.take o >>= fun o => o.read rest := by
  induction spells generalizing o with
  | none => rfl
  | flag named spells ih =>
    rw [List.cons_append, Options.read, wordIff (w := .flag _) |>.mpr named, List.foldlM_cons]
    exact ih _
  | value named value spells ih =>
    rw [List.cons_append, List.cons_append, Options.read, wordIff (w := .option _) |>.mpr named,
      List.foldlM_cons]
    simp only [Options.take]
    cases o.assign value _ with
    | ok next => exact ih next
    | error fault => rfl
  | input plain spells ih =>
    rw [List.cons_append, Options.read, wordIff (w := .plain) |>.mpr plain, List.foldlM_cons]
    simp only [Options.take]
    cases o.place _ with
    | ok next => exact ih next
    | error fault => rfl

theorem Spells.append {args later : List String} (first : Spells args items)
    (second : Spells later more) : Spells (args ++ later) (items ++ more) := by
  induction first with
  | none => exact second
  | flag named _ ih => exact .flag named ih
  | value named value _ ih => exact .value named value ih
  | input plain _ ih => exact .input plain ih

inductive Reading (before : List Item) (args : List String) : Except Fault Options → Prop
  | done {items : List Item} {final : Options} (spells : Spells args items)
      (describes : Describes (before ++ items) final) : Reading before args (.ok final)
  | stopped {front rest : List String} {items : List Item} {o : Options} {fault : Fault}
      (split : args = front ++ rest) (spells : Spells front items)
      (describes : Describes (before ++ items) o) (offends : Offends (before ++ items) rest fault) :
      Reading before args (.error fault)

theorem Reading.behind {own args : List String} {result : Except Fault Options}
    (spells : Spells own more) (reading : Reading (items ++ more) args result) :
    Reading items (own ++ args) result := by
  cases reading with
  | done later describes =>
    rw [List.append_assoc] at describes
    exact .done (spells.append later) describes
  | stopped split later describes offends =>
    subst split
    rw [List.append_assoc] at describes offends
    exact .stopped (List.append_assoc own _ _).symm (spells.append later) describes offends

theorem Reading.here {args : List String} (describes : Describes items o)
    (offends : Offends items args fault) : Reading items args (.error fault) := by
  rw [← List.append_nil items] at describes offends
  exact .stopped rfl .none describes offends

theorem assignOffends {arg value : String} {option : ValueOption} (named : arg ∈ option.names)
    (refused : o.assign value option = .error fault) (later : List String) :
    Offends items (arg :: value :: later) fault := by
  cases option with
  | rule | output => cases refused
  | strategy =>
    simp only [Options.assign] at refused
    split at refused
    · cases refused
    · next failed =>
      obtain ⟨strange, rfl⟩ := Strategy.parseUnknown failed
      cases refused
      exact .strategy named strange later
  | maxExpansions =>
    simp only [Options.assign] at refused
    split at refused
    · cases refused
    · next none =>
      cases refused
      exact .limit named (fun n decimal => by simp [limitIff.mpr decimal] at none) later

theorem placeOffends {arg : String} (describes : Describes items o) (plain : ¬ Dashed arg)
    (refused : o.place arg = .error fault) (later : List String) :
    Offends items (arg :: later) fault := by
  unfold Options.place at refused
  split at refused
  · cases refused
  · next first given =>
    cases refused
    refine .second plain (fun none => ?_) later
    rw [← describes.input, given] at none
    cases none

theorem readReading (describes : Describes items o) (args : List String) :
    Reading items args (o.read args) := by
  -- Along the recursion of the reading; what has been read describes the options so far.
  induction o, args using Options.read.induct generalizing items with
  | case1 o => exact .done .none (by simpa using describes)
  | case2 o arg rest flag known ih =>
    rw [Options.read, known]
    exact .behind (.flag (wordIff.mp known) .none) (ih (describes.flag flag))
  | case3 o arg option known =>
    rw [Options.read, known]
    exact .here describes (.missing (wordIff.mp known))
  | case4 o arg option known value rest next assigned ih =>
    simp only [Options.read, known, assigned]
    exact .behind (.value (wordIff.mp known) value .none)
      (ih (describes.value (assignIff.mp assigned)))
  | case5 o arg option known value rest fault refused =>
    simp only [Options.read, known, refused]
    exact .here describes (assignOffends (wordIff.mp known) refused rest)
  | case6 o arg rest known =>
    obtain ⟨dashed, flags, options⟩ := wordIff.mp known
    rw [Options.read, known]
    exact .here describes (.unknown dashed flags options rest)
  | case7 o arg rest known next placed ih =>
    simp only [Options.read, known, placed]
    exact .behind (.input (wordIff.mp known) .none) (ih (describes.place placed))
  | case8 o arg rest known fault refused =>
    simp only [Options.read, known, refused]
    exact .here describes (placeOffends describes (wordIff.mp known) refused rest)

theorem readOffends {args : List String} (describes : Describes items o)
    (offends : Offends items args fault) : o.read args = .error fault := by
  cases offends with
  | missing named => rw [Options.read, wordIff (w := .option _) |>.mpr named]
  | @strategy arg value named strange later =>
    cases parsed : Strategy.parse value with
    | ok strategy => exact absurd (Strategy.parseIff.mp parsed) (strange strategy)
    | error e =>
      obtain rfl := (Strategy.parseUnknown parsed).2
      simp only [Options.read, wordIff (w := .option _) |>.mpr named, Options.assign, parsed]
  | @limit arg value named strange later =>
    have none : limit? value = none :=
      Option.eq_none_iff_forall_ne_some.mpr fun n read => strange n (limitIff.mp read)
    simp only [Options.read, wordIff (w := .option _) |>.mpr named, Options.assign, none]
  | unknown dashed flags options later =>
    rw [Options.read, wordIff (w := .unknown) |>.mpr ⟨dashed, flags, options⟩]
  | second plain given later =>
    rw [Options.read, wordIff (w := .plain) |>.mpr plain]
    cases first : o.input with
    | none =>
      rw [← describes.input, first] at given
      exact absurd rfl given
    | some first' => simp only [Options.place, first]

theorem readSpelledIff {args : List String} (describes : Describes items o)
    (spells : Spells args more) : o.read args = .ok final ↔ Describes (items ++ more) final := by
  have read := readSpelled spells o []
  rw [List.append_nil] at read
  rw [read, bindOk, ← takeAll describes]
  constructor
  · rintro ⟨next, taken, ended⟩
    cases ended
    exact taken
  · exact fun taken => ⟨final, taken, rfl⟩

theorem Reading.read {args : List String} {result : Except Fault Options}
    (describes : Describes items o) (reading : Reading items args result) :
    o.read args = result := by
  cases reading with
  | done spells whole => exact (readSpelledIff describes spells).mpr whole
  | stopped split spells whole offends =>
    rw [split, readSpelled spells o, (takeAll describes).mpr whole]
    exact readOffends whole offends

theorem Describes.reordered {others : List Item} (describes : Describes items o)
    (same : Reordered items others) : Describes others o where
  input := by
    have perm : (inputs items).Perm (inputs others) := same.perm.filterMap _
    rw [← describes.input] at perm
    cases given : o.input with
    | none =>
      rw [given] at perm
      exact (List.nil_perm.mp perm).symm
    | some arg =>
      rw [given] at perm
      exact List.singleton_perm.mp perm
  holds option := same.values option ▸ describes.holds option
  flags flag := (describes.flags flag).trans same.perm.mem_iff

theorem Reordered.symm {others : List Item} (same : Reordered items others) :
    Reordered others items :=
  ⟨same.perm.symm, fun option => (same.values option).symm⟩

end

theorem readsGrammar (args : List String) :
    (∀ o, parseArgs args = .ok o ↔ ∃ items, Spells args items ∧ Describes items o) ∧
    (∀ fault, parseArgs args = .error fault ↔ ∃ front rest items o, args = front ++ rest ∧
      Spells front items ∧ Describes items o ∧ Offends items rest fault) ∧
    (∀ items, Spells args items → ∀ args' others, Spells args' others → Reordered items others →
      ∀ o, parseArgs args = .ok o ↔ parseArgs args' = .ok o) := by
  have reading := readReading describesNone args
  refine ⟨fun o => ⟨fun parsed => ?_, ?_⟩, fun fault => ⟨fun failed => ?_, ?_⟩, ?_⟩
  · rw [← parseArgs, parsed] at reading
    obtain ⟨spells, describes⟩ := reading
    exact ⟨_, spells, describes⟩
  · rintro ⟨items, spells, describes⟩
    exact Reading.read describesNone (.done spells describes)
  · rw [← parseArgs, failed] at reading
    cases reading with
    | stopped split spells describes offends =>
      exact ⟨_, _, _, _, split, spells, describes, offends⟩
  · rintro ⟨front, rest, items, o, split, spells, describes, offends⟩
    exact Reading.read describesNone (.stopped split spells describes offends)
  · intro items spells args' others spells' same o
    rw [parseArgs, parseArgs, readSpelledIff describesNone spells,
      readSpelledIff describesNone spells']
    exact ⟨fun describes => describes.reordered same,
      fun describes => describes.reordered same.symm⟩

theorem shuffledArgumentsRead :
    let args := ["-t", "-o", "--json", "net", "--max-expansions", "7", "--max-expansions", "+050"]
    let args' := ["--max-expansions", "7", "net", "--max-expansions", "+050", "-t", "-o", "--json"]
    let items : List Item := [.value .rule "-o", .flag .json, .input "net",
      .value .maxExpansions "7", .value .maxExpansions "+050"]
    let others : List Item := [.value .maxExpansions "7", .input "net",
      .value .maxExpansions "+050", .value .rule "-o", .flag .json]
    let o : Options := { rules := ["-o"], input := "net", maxExpansions := some 50, json := true }
    Spells args items ∧ Spells args' others ∧ Reordered items others ∧
      parseArgs args = .ok o ∧ parseArgs args' = .ok o := by
  intro args args' items others o
  have spells : Spells args items :=
    .value (by decide) _ (.flag (by decide) (.input (by simp [Dashed]) (.value (by decide) _
      (.value (by decide) _ .none))))
  have spells' : Spells args' others :=
    .value (by decide) _ (.input (by simp [Dashed]) (.value (by decide) _ (.value (by decide) _
      (.flag (by decide) .none))))
  have same : Reordered items others := ⟨by decide, fun option => by cases option <;> decide⟩
  have parsed : parseArgs args = .ok o := by decide +kernel
  have read := (readsGrammar args).2.2 items spells args' others spells' same o
  exact ⟨spells, spells', same, parsed, read.mp parsed⟩

end Command

end OpNet
