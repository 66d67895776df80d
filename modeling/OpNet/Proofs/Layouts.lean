import OpNet.Proofs.RoundTrip
import OpNet.Proofs.TokenForms
import Mathlib.Data.List.Forall2

/-!
Records in any layout. The fields that a text gives, in their order, are a document; a text may
spell a document in many ways. Main statement: what a text is decoded to depends on its document
only, and that is the net that the document describes; a document that repeats a field, or has an
operator without a kind, is refused.
-/
namespace OpNet

namespace Ascending

section
variable {κ ν : Type} [Ord κ] [Std.TransOrd κ] [Std.LawfulEqOrd κ]

theorem putLess {a b : κ} {u v : ν} (less : compare a b = .lt) (map : List (κ × ν)) :
    put a u (put b v map) = put b v (put a u map) := by
  have above : compare b a = .gt := Std.OrientedCmp.gt_of_lt less
  induction map with
  | nil => simp [put, less, above]
  | cons entry rest ih =>
    cases first : compare a entry.1 with
    | lt => cases last : compare b entry.1 <;> simp [put, less, above, first, last]
    | eq =>
      have last : compare b entry.1 = .gt := Std.LawfulEqOrd.eq_of_compare first ▸ above
      simp [put, above, first, last]
    | gt =>
      have last : compare b entry.1 = .gt := Std.TransCmp.gt_trans above first
      simp [put, first, last, ih]

theorem putComm {a b : κ} {u v : ν} (apart : a ≠ b) (map : List (κ × ν)) :
    put a u (put b v map) = put b v (put a u map) := by
  cases order : compare a b with
  | lt => exact putLess order map
  | eq => exact absurd (Std.LawfulEqOrd.eq_of_compare order) apart
  | gt => exact (putLess (Std.OrientedCmp.lt_of_gt order) map).symm

theorem ofPairsPerm {entries sorted : List (κ × ν)} (perm : entries.Perm sorted)
    (ascending : Sorted (sorted.map Prod.fst)) : ofPairs entries = sorted := by
  have distinct : (entries.map Prod.fst).Nodup := (perm.map Prod.fst).nodup_iff.mpr ascending.nodup
  rw [← ofPairsSorted ascending]
  refine perm.foldl_eq' (fun x hx y hy map => ?_) []
  by_cases same : x = y
  · rw [same]
  · exact (putComm (fun equal => same (List.inj_on_of_nodup_map distinct hx hy equal)) map).symm

end

end Ascending

namespace Pack

/-- What a reader makes of the bytes, whatever follows them: a value, or a fault. -/
def Answers (reader : Reader α) (bytes : Bytes) : Option α → Prop
  | some value => ∀ rest, reader (bytes ++ rest) = .ok (value, rest)
  | none => ∀ rest, ∃ fault, reader (bytes ++ rest) = .error fault

namespace Answers
variable {first : Reader α} {next reader : Reader β} {after : α × Bytes → Except Fault (β × Bytes)}
  {xs ys : Bytes} {a : α}

theorem shift {b : Option β} (tail : Answers next ys b)
    (same : ∀ rest, reader (xs ++ rest) = next (ys ++ rest)) : Answers reader xs b := by
  cases b with
  | some value => exact fun rest => (same rest).trans (tail rest)
  | none => exact fun rest => (tail rest).imp fun fault failed => (same rest).trans failed

theorem behind (head : ReadsBack first xs a) {b : Option β} (tail : Answers next ys b)
    (opens : ∀ bytes, reader bytes = first bytes >>= after)
    (goes : ∀ rest, after (a, rest) = next rest) : Answers reader (xs ++ ys) b :=
  tail.shift fun rest => by
    rw [List.append_assoc, opens, head.whole]
    exact goes _

theorem chain {found : Option α} {result : α → Option β} {next : α → Reader β}
    (head : Answers first xs found) (tail : ∀ a, found = some a → Answers (next a) ys (result a))
    (opens : ∀ bytes, reader bytes = first bytes >>= after)
    (goes : ∀ a rest, after (a, rest) = next a rest) :
    Answers reader (xs ++ ys) (found.bind result) := by
  cases found with
  | none =>
    intro rest
    obtain ⟨fault, failed⟩ := head (ys ++ rest)
    exact ⟨fault, by rw [List.append_assoc, opens, failed]; rfl⟩
  | some a =>
    refine (tail a rfl).shift fun rest => ?_
    rw [List.append_assoc, opens, head]
    exact goes a _

theorem as {found : Option α} (head : Answers first xs found) (f : α → β) :
    Answers (first.as f) xs (found.map f) := by
  cases found with
  | none => exact fun rest => (head rest).imp fun fault failed => by rw [Reader.as, failed]; rfl
  | some a => exact fun rest => by rw [Reader.as, head]; rfl

end Answers

/-! Texts, lists and maps in any form. -/

def TextForm (data bytes : Bytes) : Prop :=
  (Token.text data).Form bytes ∨ (Token.binary data).Form bytes

def ListForm (Item : α → Bytes → Prop) (items : List α) (bytes : Bytes) : Prop :=
  ∃ head pieces, (Token.array items.length).Form head ∧ List.Forall₂ Item items pieces ∧
    bytes = head ++ pieces.flatten

def EntryForm (entry : String × String) (bytes : Bytes) : Prop :=
  ∃ key value, TextForm (utf8 entry.1) key ∧ TextForm (utf8 entry.2) value ∧ bytes = key ++ value

def MapForm (entries : List (String × String)) (bytes : Bytes) : Prop :=
  ∃ head pieces, (Token.map entries.length).Form head ∧ List.Forall₂ EntryForm entries pieces ∧
    bytes = head ++ pieces.flatten

theorem stringAnswers {value : String} {bytes : Bytes} (form : TextForm (utf8 value) bytes) :
    Answers string bytes (some value) := by
  intro rest
  rcases form with form | form
  all_goals
    simp only [string, (formBack form).whole, fromUTF8Utf8, bind, Except.bind]

theorem repeatedAnswers {Item : α → Bytes → Prop} {reader : Reader β} {value : α → Option β}
    {items : List α} {pieces : List Bytes}
    (each : ∀ item piece, Item item piece → Answers reader piece (value item))
    (written : List.Forall₂ Item items pieces) :
    Answers (repeated reader items.length) pieces.flatten (items.mapM value) := by
  induction written with
  | nil => exact fun rest => rfl
  | @cons item piece items pieces here later ih =>
    rw [List.mapM_cons]
    refine (each item piece here).chain (fun a _ => ?_) (fun _ => rfl) fun _ _ => rfl
    have answers := ih.as (a :: ·)
    rwa [Option.map_eq_bind] at answers

theorem listAnswers {Item : α → Bytes → Prop} {reader : Reader β} {value : α → Option β}
    {items : List α} {bytes : Bytes}
    (each : ∀ item piece, Item item piece → Answers reader piece (value item))
    (form : ListForm Item items bytes) : Answers (list reader) bytes (items.mapM value) := by
  obtain ⟨head, pieces, opens, written, rfl⟩ := form
  exact (repeatedAnswers each written).behind (formBack opens) (fun _ => rfl) fun _ => rfl

theorem mapMSome (items : List α) : (items.mapM fun item => some item) = some items := by
  have all : (items.mapM fun item => some item) = some (items.map id) := List.mapM_pure
  rw [all, List.map_id]

theorem textsAnswer {blobs : List String} {bytes : Bytes}
    (form : ListForm (fun blob => TextForm (utf8 blob)) blobs bytes) :
    Answers (list string) bytes (some blobs) := by
  have each : ∀ blob piece, TextForm (utf8 blob) piece → Answers string piece (some blob) :=
    fun _ _ => stringAnswers
  rw [← mapMSome blobs]
  exact listAnswers each form

theorem entryAnswers {pair : String × String} {bytes : Bytes} (form : EntryForm pair bytes) :
    Answers entry bytes (some pair) := by
  obtain ⟨key, value, name, content, rfl⟩ := form
  exact (stringAnswers name).chain (fun k _ => (stringAnswers content).as (k, ·)) (fun _ => rfl)
    fun _ _ => rfl

theorem textMapAnswers {entries : List (String × String)} {bytes : Bytes}
    (form : MapForm entries bytes) : Answers textMap bytes (some (Ascending.ofPairs entries)) := by
  obtain ⟨head, pieces, opens, written, rfl⟩ := form
  have each : ∀ pair piece, EntryForm pair piece → Answers entry piece (some pair) := fun _ _ =>
    entryAnswers
  have members := (repeatedAnswers each written).as Ascending.ofPairs
  rw [mapMSome] at members
  exact members.behind (formBack opens) (fun _ => rfl) fun _ => rfl

/-! Records. -/

structure Fields (F : Type) where
  names : List String
  position : F → Nat
  Written : F → Bytes → Prop

namespace Fields
variable {F σ : Type} (form : Fields F)

def Key (field : F) (bytes : Bytes) : Prop :=
  (Token.natural (form.position field)).Form bytes ∨
    ∃ name, form.names[form.position field]? = some name ∧ TextForm (utf8 name) bytes

def UnknownKey (bytes : Bytes) : Prop :=
  (∃ i, form.names.length ≤ i ∧ (Token.natural i).Form bytes) ∨
    ∃ data, (∀ name ∈ form.names, utf8 name ≠ data) ∧ TextForm data bytes

inductive Entries : (doc : List F) → (count : Nat) → Bytes → Prop
  | none : Entries [] 0 []
  | known {field : F} {doc : List F} {count : Nat} {key value later : Bytes}
      (name : form.Key field key) (written : form.Written field value)
      (rest : Entries doc count later) :
      Entries (field :: doc) (count + 1) (key ++ value ++ later)
  | unknown {doc : List F} {count : Nat} {key value later : Bytes}
      (name : form.UnknownKey key) (skipped : Values 1000 1 value)
      (rest : Entries doc count later) : Entries doc (count + 1) (key ++ value ++ later)

inductive Spells : (doc : List F) → Bytes → Prop
  | list {doc : List F} {bytes : Bytes}
      (inOrder : doc.map form.position = List.range doc.length)
      (written : ListForm form.Written doc bytes) : Spells doc bytes
  | map {doc : List F} {count : Nat} {head members : Bytes} (opens : (Token.map count).Form head)
      (entries : form.Entries doc count members) : Spells doc (head ++ members)

def gather (layout : Layout σ) (put : σ → F → Option σ) : σ → List F → Option σ
  | fields, [] => some fields
  | fields, field :: doc =>
    (if layout.has fields (form.position field) then none else put fields field).bind
      fun next => gather layout put next doc

structure Fits (layout : Layout σ) (put : σ → F → Option σ) : Prop where
  names : layout.names = form.names
  distinct : form.names.Nodup
  known : ∀ field, form.position field < form.names.length
  reads : ∀ fields field bytes, form.Written field bytes →
    Answers (layout.read fields (form.position field)) bytes (put fields field)
  fills : ∀ fields field next, put fields field = some next → ∀ other,
    layout.has next (form.position other) =
      (layout.has fields (form.position other) || form.position other == form.position field)

section
variable {form} {layout : Layout σ} {put : σ → F → Option σ} {fields last : σ} {doc : List F}
  {field : F} {bytes : Bytes} {depth count : Nat}

namespace Fits

theorem keyField (fits : form.Fits layout put) (key : form.Key field bytes) :
    ∃ t, ReadsBack token bytes t ∧ layout.field? t = .ok (some (form.position field)) := by
  have known := fits.known field
  have distinct := fits.distinct
  rw [← fits.names] at known distinct
  rcases key with key | ⟨name, here, key⟩
  · exact ⟨_, formBack key, by rw [Layout.field?, if_pos known]⟩
  · have named := Layout.namedField distinct (fits.names ▸ here)
    rcases key with key | key
    · exact ⟨_, formBack key, named⟩
    · exact ⟨_, formBack key, named⟩

theorem unknownField (fits : form.Fits layout put) (key : form.UnknownKey bytes) :
    ∃ t, ReadsBack token bytes t ∧ layout.field? t = .ok none := by
  rcases key with ⟨i, beyond, key⟩ | ⟨data, other, key⟩
  · rw [← fits.names] at beyond
    exact ⟨_, formBack key, by rw [Layout.field?, if_neg (Nat.not_lt.mpr beyond)]⟩
  · rw [← fits.names] at other
    have none : layout.field? (.text data) = .ok none :=
      congrArg Except.ok <| List.findIdx?_eq_none_iff.mpr fun name mem => by
        simpa using other name mem
    rcases key with key | key
    · exact ⟨_, formBack key, none⟩
    · exact ⟨_, formBack key, none⟩

theorem knownEntry (fits : form.Fits layout put) {key value : Bytes} (name : form.Key field key)
    (written : form.Written field value) (depth : Nat) (fields : σ) :
    Answers (layout.readEntry depth fields) (key ++ value)
      (if layout.has fields (form.position field) then none else put fields field) := by
  obtain ⟨t, read, found⟩ := fits.keyField name
  have opens : ∀ rest, layout.readEntry depth fields (key ++ value ++ rest) =
      if layout.has fields (form.position field) then
        .error (.repeatedField ((layout.names[form.position field]?).getD ""))
      else layout.read fields (form.position field) (value ++ rest) := by
    intro rest
    rw [Layout.readEntry, List.append_assoc, read.whole]
    simp only [bind, Except.bind, found]
  split
  · next again => exact fun rest => ⟨_, by rw [opens, if_pos again]⟩
  · next fresh =>
    exact (fits.reads fields field value written).shift fun rest => by rw [opens, if_neg fresh]

theorem unknownEntry (fits : form.Fits layout put) {key value : Bytes}
    (name : form.UnknownKey key) (skipped : Values 1000 1 value) (deep : 1000 < depth)
    (fields : σ) : Answers (layout.readEntry depth fields) (key ++ value) (some fields) := by
  obtain ⟨t, read, found⟩ := fits.unknownField name
  intro rest
  rw [Layout.readEntry, List.append_assoc, read.whole]
  simp only [bind, Except.bind, found, skipValueBack skipped deep, pure, Except.pure]

theorem entriesAnswer (fits : form.Fits layout put) (deep : 1000 < depth)
    (entries : form.Entries doc count bytes) (fields : σ) :
    Answers (layout.readEntries depth count fields) bytes (form.gather layout put fields doc) := by
  induction entries generalizing fields with
  | none => exact fun rest => rfl
  | known name written _ ih =>
    exact (fits.knownEntry name written depth fields).chain (fun next _ => ih next) (fun _ => rfl)
      fun _ _ => rfl
  | unknown name skipped _ ih =>
    exact (fits.unknownEntry name skipped deep fields).chain (fun next _ => ih next)
      (fun _ => rfl) fun _ _ => rfl

theorem inOrderAnswer (fits : form.Fits layout put) {pieces : List Bytes}
    (written : List.Forall₂ form.Written doc pieces) {first : Nat}
    (inOrder : doc.map form.position = List.range' first doc.length)
    (fresh : ∀ field ∈ doc, layout.has fields (form.position field) = false) :
    Answers (layout.readInOrder doc.length first fields) pieces.flatten
      (form.gather layout put fields doc) := by
  induction written generalizing fields first with
  | nil => exact fun rest => rfl
  | @cons field piece doc pieces here later ih =>
    obtain ⟨new, others⟩ := List.forall_mem_cons.mp fresh
    rw [List.map_cons, List.length_cons, List.range'_succ, List.cons.injEq] at inOrder
    obtain ⟨rfl, inOrder⟩ := inOrder
    have head := fits.reads fields field piece here
    rw [gather, new, if_neg Bool.false_ne_true]
    refine head.chain (fun next put => ih inOrder fun other mem => ?_) (fun _ => rfl)
      fun _ _ => rfl
    have after : form.position other ∈ List.range' (form.position field + 1) doc.length :=
      inOrder ▸ List.mem_map_of_mem mem
    have apart : form.position other ≠ form.position field := by
      have := (List.mem_range'_1.mp after).1
      omega
    rw [fits.fills fields field next put other, others other mem, Bool.false_or]
    exact beq_false_of_ne apart

theorem recordAnswers (fits : form.Fits layout put) (deep : 1000 < depth)
    (spells : form.Spells doc bytes)
    (blank : ∀ field, layout.has fields (form.position field) = false) :
    Answers (layout.readRecord depth fields) bytes (form.gather layout put fields doc) := by
  cases spells with
  | list inOrder written =>
    obtain ⟨head, pieces, opens, written, rfl⟩ := written
    have few : ¬ layout.names.length < doc.length := by
      intro more
      rw [fits.names, ← List.mem_range, ← inOrder, List.mem_map] at more
      obtain ⟨field, _, beyond⟩ := more
      exact absurd (fits.known field) (by omega)
    refine (fits.inOrderAnswer written (List.range_eq_range' ▸ inOrder) fun field _ =>
      blank field).behind (formBack opens) (fun _ => rfl) fun rest => ?_
    exact if_neg few
  | map opens entries =>
    exact (fits.entriesAnswer deep entries fields).behind (formBack opens) (fun _ => rfl)
      fun _ => rfl

/-! What is gathered. -/

theorem gathered (fits : form.Fits layout put)
    (made : form.gather layout put fields doc = some last) :
    (doc.map form.position).Nodup ∧
      (∀ field ∈ doc, layout.has fields (form.position field) = false) ∧
      ∀ other, layout.has last (form.position other) =
        (layout.has fields (form.position other) ||
          (doc.map form.position).contains (form.position other)) := by
  induction doc generalizing fields with
  | nil =>
    cases made
    simp
  | cons field rest ih =>
    obtain ⟨next, here, made⟩ := Option.bind_eq_some_iff.mp made
    split at here
    · cases here
    · next fresh =>
      have fills := fits.fills fields field next here
      obtain ⟨distinct, others, has⟩ := ih made
      have apart : ∀ other ∈ rest, layout.has fields (form.position other) = false ∧
          form.position other ≠ form.position field := by
        intro other mem
        have new := others other mem
        rw [fills, Bool.or_eq_false_iff] at new
        exact ⟨new.1, ne_of_beq_false new.2⟩
      refine ⟨List.nodup_cons.mpr ⟨fun mem => ?_, distinct⟩, ?_, fun other => ?_⟩
      · obtain ⟨other, there, same⟩ := List.mem_map.mp mem
        exact (apart other there).2 same
      · exact List.forall_mem_cons.mpr
          ⟨eq_false_of_ne_true fresh, fun other mem => (apart other mem).1⟩
      · rw [has, fills, List.map_cons, List.contains_cons, Bool.or_assoc]

theorem leftOut (fits : form.Fits layout put)
    (made : form.gather layout put fields doc = some last)
    (missing : layout.has last (form.position field) = false) : field ∉ doc := by
  intro mem
  have held : form.position field ∈ doc.map form.position := List.mem_map_of_mem mem
  rw [(fits.gathered made).2.2, List.contains_iff_mem.mpr held, Bool.or_true] at missing
  cases missing

theorem givenIn (fits : form.Fits layout put)
    (made : form.gather layout put fields doc = some last)
    (blank : layout.has fields (form.position field) = false)
    (given : layout.has last (form.position field) = true) :
    ∃ other ∈ doc, form.position other = form.position field := by
  rw [(fits.gathered made).2.2, blank, Bool.false_or, List.contains_iff_mem] at given
  exact List.mem_map.mp given

theorem gatherKeeps (fits : form.Fits layout put) (Good : σ → Prop)
    (once : (doc.map form.position).Nodup)
    (fresh : ∀ field ∈ doc, layout.has fields (form.position field) = false) (good : Good fields)
    (each : ∀ fields, ∀ field ∈ doc, Good fields →
      ∃ next, put fields field = some next ∧ Good next) :
    ∃ last, form.gather layout put fields doc = some last ∧ Good last := by
  induction doc generalizing fields with
  | nil => exact ⟨fields, rfl, good⟩
  | cons field rest ih =>
    obtain ⟨new, others⟩ := List.forall_mem_cons.mp fresh
    obtain ⟨apart, distinct⟩ := List.nodup_cons.mp once
    obtain ⟨next, here, better⟩ := each fields field List.mem_cons_self good
    have later : ∀ other ∈ rest, layout.has next (form.position other) = false := by
      intro other mem
      rw [fits.fills fields field next here, others other mem, Bool.false_or]
      exact beq_false_of_ne fun same => apart (same ▸ List.mem_map_of_mem mem)
    obtain ⟨last, made, best⟩ := ih distinct later better fun fields other mem =>
      each fields other (List.mem_cons_of_mem _ mem)
    refine ⟨last, ?_, best⟩
    rw [gather, new, if_neg Bool.false_ne_true, here]
    exact made

end Fits

theorem gatherFails (mem : field ∈ doc) (fails : ∀ fields, put fields field = none) (fields : σ) :
    form.gather layout put fields doc = none := by
  induction doc generalizing fields with
  | nil => cases mem
  | cons other rest ih =>
    rw [gather, Option.bind_eq_none_iff]
    intro next here
    rcases List.mem_cons.mp mem with rfl | mem
    · split at here
      · cases here
      · rw [fails] at here
        cases here
    · exact ih mem next

end

end Fields

end Pack

end OpNet
