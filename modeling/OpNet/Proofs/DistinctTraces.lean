import OpNet.Proofs.JsonText

/-!
What can be told of a trace from its JSON. A text ends at the first quote without a backslash of
its own, a number at the first character that is no digit, and a list at its bracket, so that
whatever stands in a text stays inside it. Main statement: two traces that are written alike hold
the same records.
-/
namespace OpNet.Trace.Json

def Breaks (rest : List Char) : Prop := ∀ c ∈ rest.head?, c.isDigit = false

/-- What is written tells what it stands for and where it ends. -/
def Tells (good : α → Prop) (write : α → List Char) : Prop :=
  ∀ ⦃a b s t⦄, good a → good b → Breaks s → Breaks t → write a ++ s = write b ++ t → a = b ∧ s = t

theorem breaksMark {c : Char} (mark : c.isDigit = false) (rest : List Char) :
    Breaks (c :: rest) := by
  simpa [Breaks] using mark

/-! Numbers and texts. -/

theorem numberSpelling (n : Nat) : number n = Nat.toDigits 10 n := by
  rw [number, Nat.toString_eq_ofList_toDigits, String.toList_ofList]

theorem numberDigits {n : Nat} {c : Char} (mem : c ∈ number n) : c.isDigit = true :=
  Nat.isDigit_of_mem_toDigits (by decide) (by decide) (numberSpelling n ▸ mem)

theorem digitsBefore {ds rest : List Char} (digits : ∀ c ∈ ds, c.isDigit = true)
    (ends : Breaks rest) : (ds ++ rest).takeWhile Char.isDigit = ds := by
  have none : rest.takeWhile Char.isDigit = [] := by
    cases rest with
    | nil => rfl
    | cons c rest => exact List.takeWhile_cons_of_neg (Bool.eq_false_iff.mp (ends c rfl))
  rw [List.takeWhile_append_of_pos digits, none, List.append_nil]

theorem numberTells : Tells (fun _ => True) number := by
  intro n m s t _ _ left right same
  have digits := congrArg (List.takeWhile Char.isDigit) same
  rw [digitsBefore (fun _ => numberDigits) left, digitsBefore (fun _ => numberDigits) right,
    numberSpelling, numberSpelling] at digits
  have values := congrArg (Nat.ofDigitChars 10 · 0) digits
  simp only [Nat.ofDigitChars_ten_toDigits] at values
  subst values
  exact ⟨rfl, List.append_cancel_left same⟩

theorem booleanTells : Tells (fun _ => True) boolean := by
  intro a b s t _ _ _ _ same
  cases a <;> cases b <;> simp_all [boolean]

theorem escapedCases (c : Char) :
    (∃ e, (e, c) ∈ escapes ∧ escapedChar c = ['\\', e]) ∨
      (c ≠ '"' ∧ c ≠ '\\' ∧ escapedChar c = [c]) := by
  unfold escapedChar
  split
  · exact .inl ⟨_, by decide, rfl⟩
  · exact .inl ⟨_, by decide, rfl⟩
  · exact .inl ⟨_, by decide, rfl⟩
  · exact .inl ⟨_, by decide, rfl⟩
  · exact .inl ⟨_, by decide, rfl⟩
  · next backslash quote _ _ _ => exact .inr ⟨quote, backslash, rfl⟩

theorem escapedCharTells {c d : Char} {s t : List Char}
    (same : escapedChar c ++ s = escapedChar d ++ t) : c = d ∧ s = t := by
  -- Behind a backslash the letter tells, and nothing else begins with one.
  have letters : ∀ p ∈ escapes, ∀ q ∈ escapes, p.1 = q.1 → p.2 = q.2 := by decide
  rcases escapedCases c with ⟨e, known, spelled⟩ | ⟨_, plain, spelled⟩ <;>
    rcases escapedCases d with ⟨f, known', spelled'⟩ | ⟨_, plain', spelled'⟩ <;>
    rw [spelled, spelled'] at same
  · obtain ⟨-, letter, rest⟩ : True ∧ e = f ∧ s = t := by simpa using same
    exact ⟨letters _ known _ known' letter, rest⟩
  · exact absurd (List.cons.inj same).1.symm plain'
  · exact absurd (List.cons.inj same).1 plain
  · simpa using same

theorem quoteEscaped {c : Char} {s t : List Char} : escapedChar c ++ s ≠ '"' :: t := by
  intro same
  rcases escapedCases c with ⟨e, _, spelled⟩ | ⟨quote, _, spelled⟩
  · rw [spelled] at same
    exact absurd (List.cons.inj same).1 (by decide)
  · rw [spelled] at same
    exact quote (List.cons.inj same).1

theorem escapedTells {cs ds s t : List Char}
    (same : escaped cs ++ '"' :: s = escaped ds ++ '"' :: t) : cs = ds ∧ s = t := by
  induction cs generalizing ds with
  | nil =>
    cases ds with
    | nil => exact ⟨rfl, (List.cons.inj same).2⟩
    | cons d ds => exact absurd (by simpa [escaped] using same.symm) quoteEscaped
  | cons c cs ih =>
    cases ds with
    | nil => exact absurd (by simpa [escaped] using same) quoteEscaped
    | cons d ds =>
      simp only [escaped, List.flatMap_cons, List.append_assoc] at same
      obtain ⟨rfl, later⟩ := escapedCharTells same
      obtain ⟨rfl, rest⟩ := ih later
      exact ⟨rfl, rest⟩

theorem textTells : Tells (fun _ => True) text := by
  intro a b s t _ _ _ _ same
  simp only [text, List.cons_append, List.append_assoc, List.cons.injEq, true_and] at same
  obtain ⟨chars, rest⟩ := escapedTells same
  exact ⟨String.toList_injective chars, rest⟩

/-! The escapes may also be put in one kind after another, over the whole text each time. -/

def exchanged (cs : List Char) (exchange : Char × List Char) : List Char :=
  cs.flatMap fun c => if c = exchange.1 then exchange.2 else [c]

/-- Backslashes come first, for all later exchanges bring in backslashes of their own. -/
def exchanges : List (Char × List Char) :=
  [('\\', ['\\', '\\']), ('"', ['\\', '"']), ('\n', ['\\', 'n']), ('\r', ['\\', 'r']),
   ('\t', ['\\', 't'])]

theorem exchangedAppend (steps : List (Char × List Char)) (cs ds : List Char) :
    steps.foldl exchanged (cs ++ ds) = steps.foldl exchanged cs ++ steps.foldl exchanged ds := by
  induction steps generalizing cs ds with
  | nil => rfl
  | cons exchange steps ih =>
    simp only [List.foldl_cons]
    rw [← ih, exchanged, List.flatMap_append]
    rfl

theorem escapedInTurn (cs : List Char) : exchanges.foldl exchanged cs = escaped cs := by
  induction cs with
  | nil => rfl
  | cons c cs ih =>
    have here : exchanges.foldl exchanged [c] = escapedChar c := by
      unfold escapedChar
      split <;> simp_all [exchanges, exchanged]
    rw [← List.singleton_append, exchangedAppend, here, ih]
    rfl

/-! Lists. -/

section
variable {good : α → Prop} {write : α → List Char} {gap s t : List Char} {close : Char}

def following (gap : List Char) (write : α → List Char) (xs : List α) : List Char :=
  xs.flatMap fun x => ',' :: gap ++ write x

theorem joinedCons (gap : List Char) (write : α → List Char) (x : α) (xs : List α) :
    joined (',' :: gap) ((x :: xs).map write) = write x ++ following gap write xs := by
  induction xs generalizing x with
  | nil => simp [joined, following]
  | cons y ys ih =>
    have later := ih y
    simp only [joined, following, List.map_cons, List.flatMap_cons] at later ⊢
    rw [List.intercalate_cons_cons, later, List.append_assoc, List.append_assoc]

theorem breaksFollowing (mark : close.isDigit = false) (xs : List α) (rest : List Char) :
    Breaks (following gap write xs ++ close :: rest) := by
  cases xs with
  | nil => exact breaksMark mark rest
  | cons x xs => exact breaksMark (by decide) _

theorem followingTells (tells : Tells good write) (mark : close.isDigit = false)
    (other : close ≠ ',') {xs ys : List α} (left : ∀ x ∈ xs, good x) (right : ∀ y ∈ ys, good y)
    (same : following gap write xs ++ close :: s = following gap write ys ++ close :: t) :
    xs = ys ∧ s = t := by
  induction xs generalizing ys with
  | nil =>
    cases ys with
    | nil => exact ⟨rfl, (List.cons.inj same).2⟩
    | cons y ys => exact absurd (List.cons.inj same).1 other
  | cons x xs ih =>
    cases ys with
    | nil => exact absurd (List.cons.inj same).1.symm other
    | cons y ys =>
      simp only [List.forall_mem_cons] at left right
      simp only [following, List.flatMap_cons, List.cons_append, List.append_assoc,
        List.cons.injEq, true_and, List.append_cancel_left_eq] at same
      obtain ⟨rfl, later⟩ :=
        tells left.1 right.1 (breaksFollowing mark xs s) (breaksFollowing mark ys t) same
      obtain ⟨rfl, rest⟩ := ih left.2 right.2 later
      exact ⟨rfl, rest⟩

theorem joinedTells (tells : Tells good write) (mark : close.isDigit = false) (other : close ≠ ',')
    (opens : ∀ a, good a → ∃ c cs, write a = c :: cs ∧ c ≠ close) {xs ys : List α}
    (left : ∀ x ∈ xs, good x) (right : ∀ y ∈ ys, good y)
    (same : joined (',' :: gap) (xs.map write) ++ close :: s =
      joined (',' :: gap) (ys.map write) ++ close :: t) : xs = ys ∧ s = t := by
  have apart {a : α} {rest after : List Char} (sound : good a) :
      write a ++ rest ≠ close :: after := by
    obtain ⟨c, cs, spelled, differs⟩ := opens a sound
    rw [spelled]
    exact fun equal => differs (List.cons.inj equal).1
  cases xs with
  | nil =>
    cases ys with
    | nil => exact ⟨rfl, (List.cons.inj same).2⟩
    | cons y ys =>
      rw [joinedCons, List.append_assoc] at same
      exact absurd same.symm (apart (right y List.mem_cons_self))
  | cons x xs =>
    cases ys with
    | nil =>
      rw [joinedCons, List.append_assoc] at same
      exact absurd same (apart (left x List.mem_cons_self))
    | cons y ys =>
      -- With a comma before the first item too, both are lists of following items.
      rw [joinedCons, joinedCons, List.append_assoc, List.append_assoc] at same
      have commas := congrArg (',' :: gap ++ ·) same
      exact followingTells tells mark other left right (by simpa [following] using commas)

end

theorem numberOpens (n : Nat) : ∃ c cs, number n = c :: cs ∧ c.isDigit = true := by
  obtain ⟨c, cs, spelled⟩ := List.exists_cons_of_ne_nil (numberSpelling n ▸ Nat.toDigits_ne_nil)
  exact ⟨c, cs, spelled, numberDigits (spelled ▸ List.mem_cons_self)⟩

theorem numbersTells : Tells (fun _ => True) numbers := by
  intro ns ms s t _ _ _ _ same
  have opens : ∀ n, True → ∃ c cs, number n = c :: cs ∧ c ≠ ']' := fun n _ => by
    obtain ⟨c, cs, spelled, digit⟩ := numberOpens n
    exact ⟨c, cs, spelled, fun bracket => by simp [bracket] at digit⟩
  simp only [numbers, List.cons_append, List.append_assoc, List.nil_append, List.cons.injEq,
    true_and] at same
  exact joinedTells numberTells (by decide) (by decide) opens (fun _ _ => trivial)
    (fun _ _ => trivial) same

/-! Records. -/

inductive Form
  | number
  | boolean
  | text
  | numbers
  deriving DecidableEq

def formOf (c : Char) : Form :=
  if c.isDigit then .number else if c = '"' then .text else if c = '[' then .numbers else .boolean

inductive Written : Form → List Char → Prop
  | number (n : Nat) : Written .number (number n)
  | boolean (b : Bool) : Written .boolean (boolean b)
  | text (value : String) : Written .text (text value)
  | numbers (ns : List Nat) : Written .numbers (numbers ns)

def IsValue (cs : List Char) : Prop := ∃ form, Written form cs

theorem formOpens {form : Form} {cs : List Char} (written : Written form cs) :
    ∃ c rest, cs = c :: rest ∧ formOf c = form := by
  cases written with
  | number n =>
    obtain ⟨c, rest, spelled, digit⟩ := numberOpens n
    exact ⟨c, rest, spelled, if_pos digit⟩
  | boolean b =>
    cases b with
    | false => exact ⟨'f', _, rfl, by decide⟩
    | true => exact ⟨'t', _, rfl, by decide⟩
  | text value => exact ⟨_, _, rfl, by decide⟩
  | numbers ns => exact ⟨_, _, rfl, by decide⟩

theorem valueTells : Tells IsValue id := by
  rintro a b s t ⟨form, left⟩ ⟨form', right⟩ ends ends' same
  -- The first character tells the form, and each form its values.
  obtain ⟨c, cs, opens, first⟩ := formOpens left
  obtain ⟨d, ds, opens', second⟩ := formOpens right
  have alike : c = d := by
    rw [id, id, opens, opens'] at same
    exact (List.cons.inj same).1
  obtain rfl : form = form' := by rw [← first, ← second, alike]
  cases left with
  | number n =>
    obtain ⟨m⟩ := right
    exact (numberTells trivial trivial ends ends' same).imp_left (congrArg number)
  | boolean b =>
    obtain ⟨b'⟩ := right
    exact (booleanTells trivial trivial ends ends' same).imp_left (congrArg boolean)
  | text value =>
    obtain ⟨value'⟩ := right
    exact (textTells trivial trivial ends ends' same).imp_left (congrArg text)
  | numbers ns =>
    obtain ⟨ms⟩ := right
    exact (numbersTells trivial trivial ends ends' same).imp_left (congrArg numbers)

theorem memberTells : Tells (fun m : String × List Char => IsValue m.2)
    (fun m => text m.1 ++ ':' :: m.2) := by
  rintro ⟨name, a⟩ ⟨name', b⟩ s t left right ends ends' same
  simp only [List.append_assoc, List.cons_append] at same
  obtain ⟨rfl, later⟩ :=
    textTells trivial trivial (breaksMark (by decide) _) (breaksMark (by decide) _) same
  obtain ⟨rfl, rest⟩ := valueTells left right ends ends' (List.cons.inj later).2
  exact ⟨rfl, rest⟩

theorem objectTells : Tells (fun members => ∀ m ∈ members, IsValue m.2) object := by
  intro ms ms' s t left right _ _ same
  have opens : ∀ m : String × List Char, IsValue m.2 →
      ∃ c cs, text m.1 ++ ':' :: m.2 = c :: cs ∧ c ≠ '\x7d' :=
    fun m _ => ⟨_, _, rfl, by decide⟩
  simp only [object, List.cons_append, List.append_assoc, List.nil_append, List.cons.injEq,
    true_and] at same
  exact joinedTells memberTells (by decide) (by decide) opens left right same

theorem membersValues (r : Record) : ∀ m ∈ members r, IsValue m.2 := by
  have number : ∀ n, IsValue (number n) := fun n => ⟨_, .number n⟩
  have text : ∀ value, IsValue (text value) := fun value => ⟨_, .text value⟩
  have numbers : ∀ ns, IsValue (numbers ns) := fun ns => ⟨_, .numbers ns⟩
  have boolean : ∀ b, IsValue (boolean b) := fun b => ⟨_, .boolean b⟩
  cases r with
  | mk id pass timestamp event =>
    cases event <;> simp [members, eventMembers, number, text, numbers, boolean]

theorem Tells.injective {good : α → Prop} {write : α → List Char} (tells : Tells good write)
    {a b : α} (left : good a) (right : good b) : write a = write b ↔ a = b := by
  have empty : Breaks [] := nofun
  refine ⟨fun same => (tells left right empty empty ?_).1, congrArg write⟩
  rw [same]

theorem strategyTold {one two : Strategy} : one.name = two.name ↔ one = two := by
  cases one <;> cases two <;> decide

theorem numberTold {n m : Nat} : number n = number m ↔ n = m :=
  numberTells.injective trivial trivial

theorem booleanTold {a b : Bool} : boolean a = boolean b ↔ a = b :=
  booleanTells.injective trivial trivial

theorem textTold {a b : String} : text a = text b ↔ a = b := textTells.injective trivial trivial

theorem numbersTold {ns ms : List Nat} : numbers ns = numbers ms ↔ ns = ms :=
  numbersTells.injective trivial trivial

theorem statsTold {one two : Search.Stats} : one = two ↔
    one.expansions = two.expansions ∧ one.tried = two.tried ∧ one.accepted = two.accepted := by
  cases one
  cases two
  simp only [Search.Stats.mk.injEq]

theorem eventTold {one two : Event} (kind : one.kind = two.kind)
    (same : eventMembers one = eventMembers two) : one = two := by
  cases one <;> cases two <;>
    simp_all [Event.kind, eventMembers, strategyTold, numberTold, booleanTold, textTold,
      numbersTold, statsTold]

theorem recordTold {one two : Record} (same : members one = members two) : one = two := by
  obtain ⟨id, pass, timestamp, event⟩ := one
  obtain ⟨id', pass', timestamp', event'⟩ := two
  simp only [members, List.cons_append, List.nil_append, List.cons.injEq, Prod.mk.injEq, true_and,
    numberTold, textTold] at same
  obtain ⟨rfl, rfl, rfl, kind, rest⟩ := same
  obtain rfl := eventTold kind rest
  rfl

theorem recordTells : Tells (fun _ => True) recordChars := by
  intro one two s t _ _ ends ends' same
  obtain ⟨members, rest⟩ :=
    objectTells (membersValues one) (membersValues two) ends ends' same
  exact ⟨recordTold members, rest⟩

theorem recordsTold {gap s t : List Char} {close : Char} {rs rs' : List Record}
    (mark : close.isDigit = false) (other : close ≠ ',') (brace : close ≠ '\x7b')
    (same : joined (',' :: gap) (rs.map recordChars) ++ close :: s =
      joined (',' :: gap) (rs'.map recordChars) ++ close :: t) : rs = rs' :=
  (joinedTells recordTells mark other (fun _ _ => ⟨_, _, rfl, brace.symm⟩) (fun _ _ => trivial)
    (fun _ _ => trivial) same).1

theorem tracesDistinct (rs rs' : List Record) :
    (compact rs = compact rs' ↔ rs = rs') ∧ (pretty rs = pretty rs' ↔ rs = rs') := by
  refine ⟨⟨fun same => ?_, congrArg compact⟩, ⟨fun same => ?_, congrArg pretty⟩⟩
  · have chars : compactChars rs = compactChars rs' := String.ofList_injective same
    simp only [compactChars, List.cons_append, List.cons.injEq, true_and] at chars
    exact recordsTold (by decide) (by decide) (by decide) chars
  · have chars : prettyChars rs = prettyChars rs' := String.ofList_injective same
    simp only [prettyChars, List.append_assoc, List.append_cancel_left_eq] at chars
    exact recordsTold (by decide) (by decide) (by decide) chars

end OpNet.Trace.Json
