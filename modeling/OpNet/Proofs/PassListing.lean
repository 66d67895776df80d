import OpNet.Proofs.RecentHistory
import Mathlib.Data.Finset.Card
import Mathlib.Data.List.Destutter

/-!
The passes that a buffer lists, when records may be pushed under any pass number. A number is
compared with the one listed before it and no other. Main statement: each pass in the buffer is
listed once, where it first appears, exactly when no pass comes back after another; otherwise some
pass is listed, and counted, more than once.
-/
namespace OpNet.Trace.Buffer

inductive Step
  | push (pass timestamp : Nat) (event : Event)
  | clear
  deriving DecidableEq

def step (b : Buffer) : Step → Buffer
  | .push pass timestamp event => b.push pass timestamp event
  | .clear => b.clear

def stepped (b : Buffer) (steps : List Step) : Buffer := steps.foldl step b

def Step.issue? : Step → Option Issue
  | .push pass timestamp event => some ⟨pass, timestamp, event⟩
  | .clear => none

def issued (steps : List Step) : List Issue := steps.filterMap Step.issue?

def goneCount (steps : List Step) : Nat := (issued (steps.rdropWhile (· ≠ .clear))).length

theorem steppedKeeps (maxSize : Nat) (steps : List Step) :
    (stepped { maxSize } steps).Keeps maxSize (issued steps) (goneCount steps) := by
  induction steps using List.reverseRecOn with
  | nil => exact ⟨rfl, rfl, by simp [stepped, issued, numbered, lastOf], Nat.le_refl 0⟩
  | append_singleton steps s ih =>
    rw [stepped, List.foldl_append, goneCount, List.rdropWhile_concat, issued,
      List.filterMap_append]
    cases s with
    | push pass timestamp event => exact ih.push pass timestamp event
    | clear =>
      simpa [issued, List.filterMap_cons, Step.issue?, stepped, step] using ih.clear

/-! Neighbours that are equal, and passes that come back. -/

section
variable {rs : List Record}

theorem passesDestutter (rs : List Record) :
    passesOf rs = (rs.map Record.pass).destutter (· ≠ ·) := by
  induction rs using passesOf.induct with
  | case1 | case2 r => rfl
  | case3 r s rest same ih =>
    rw [passesOf, if_pos same, ih, List.map_cons, List.map_cons, List.map_cons,
      List.destutter_cons_cons, if_neg (not_not.mpr same), same]
    rfl
  | case4 r s rest other ih =>
    rw [passesOf, if_neg other, ih, List.map_cons, List.map_cons, List.map_cons,
      List.destutter_cons_cons, if_pos other]
    rfl

/-- No pass comes back after another. -/
def Together (passes : List Nat) : Prop := ∀ p q, [p, q, p].Sublist passes → q = p

theorem Together.tail {p : Nat} {passes : List Nat} (together : Together (p :: passes)) :
    Together passes := fun q other back => together q other (back.cons p)

theorem changesListed {passes : List Nat} (changes : passes.IsChain (· ≠ ·))
    (sub : passes.Sublist (rs.map Record.pass)) : passes.Sublist (passesOf rs) := by
  induction rs using passesOf.induct generalizing passes with
  | case1 | case2 r => exact sub
  | case3 r s rest same ih =>
    -- Of the two equal ones at most one is in `passes`, and the second stays.
    rw [passesOf, if_pos same]
    rw [List.map_cons, List.map_cons, same] at sub
    cases sub with
    | cons _ sub => exact ih changes sub
    | cons_cons _ sub =>
      cases sub with
      | cons _ sub => exact ih changes (sub.cons_cons s.pass)
      | cons_cons _ sub => exact absurd rfl (List.isChain_cons_cons.mp changes).1
  | case4 r s rest other ih =>
    rw [passesOf, if_neg other]
    cases sub with
    | cons _ sub => exact (ih changes sub).cons r.pass
    | cons_cons _ sub => exact (ih changes.tail sub).cons_cons r.pass

theorem nodupIff : (passesOf rs).Nodup ↔ Together (rs.map Record.pass) := by
  constructor
  · intro nodup p q back
    by_contra other
    have changes : [p, q, p].IsChain (· ≠ ·) := by simp [other, Ne.symm other]
    have twice := nodup.sublist (changesListed changes back)
    simp at twice
  · intro together
    induction rs using passesOf.induct with
    | case1 => exact List.nodup_nil
    | case2 r => exact List.nodup_singleton r.pass
    | case3 r s rest same ih =>
      rw [passesOf, if_pos same]
      exact ih together.tail
    | case4 r s rest other ih =>
      rw [passesOf, if_neg other]
      -- Listed again, the pass of `r` comes back behind `s`.
      refine List.nodup_cons.mpr ⟨fun mem => ?_, ih together.tail⟩
      obtain ⟨t, there, comes⟩ := memPasses.mp mem
      have behind : t ∈ rest :=
        (List.mem_cons.mp there).resolve_left fun same => other (comes.symm.trans (same ▸ rfl))
      have back : [r.pass].Sublist (rest.map Record.pass) :=
        List.singleton_sublist.mpr (comes ▸ List.mem_map_of_mem behind)
      exact other (together _ _ ((back.cons_cons s.pass).cons_cons r.pass)).symm

theorem nodupEraseDups (xs : List Nat) : xs.eraseDups.Nodup := by
  induction xs using List.reverseRecOn with
  | nil => exact List.nodup_nil
  | append_singleton xs x ih =>
    rw [List.eraseDups_append]
    by_cases known : x ∈ xs
    · simpa [List.removeAll, known] using ih
    · simpa [List.removeAll, known, List.eraseDups_cons, List.nodup_append] using
        ⟨ih, fun y mem same => known (same ▸ mem)⟩

theorem eraseDupsIff : passesOf rs = (rs.map Record.pass).eraseDups ↔ (passesOf rs).Nodup := by
  refine ⟨fun same => same ▸ nodupEraseDups _, fun nodup => ?_⟩
  induction rs using passesOf.induct with
  | case1 => rfl
  | case2 r => rfl
  | case3 r s rest same ih =>
    rw [passesOf, if_pos same] at nodup ⊢
    rw [ih nodup]
    simp [List.eraseDups_cons, same]
  | case4 r s rest other ih =>
    rw [passesOf, if_neg other] at nodup ⊢
    obtain ⟨fresh, nodup⟩ := List.nodup_cons.mp nodup
    have others : ∀ pass ∈ (s :: rest).map Record.pass, (!pass == r.pass) = true := by
      intro pass mem
      obtain ⟨t, there, rfl⟩ := List.mem_map.mp mem
      simpa using fun same => fresh (memPasses.mpr ⟨t, there, same⟩)
    rw [ih nodup, List.map_cons (l := s :: rest), List.eraseDups_cons,
      List.filter_eq_self.mpr others]

theorem countIff :
    (passesOf rs).length = (rs.map Record.pass).toFinset.card ↔ (passesOf rs).Nodup := by
  have members : (rs.map Record.pass).toFinset = (passesOf rs).toFinset := by
    ext pass
    simp [memPasses]
  rw [members, eq_comm]
  exact Multiset.toFinset_card_eq_card_iff_nodup (m := (passesOf rs : Multiset Nat))

end

theorem listsOnceIff (maxSize : Nat) (steps : List Step) :
    let b := stepped { maxSize } steps
    let present := b.records.map Record.pass
    b.Keeps maxSize (issued steps) (goneCount steps) ∧
      b.passes = present.destutter (· ≠ ·) ∧
      (b.passes = present.eraseDups ↔ Together present) ∧
      (b.stats.passCount = present.toFinset.card ↔ Together present) :=
  ⟨steppedKeeps maxSize steps, passesDestutter _, eraseDupsIff.trans nodupIff,
    countIff.trans nodupIff⟩

theorem returningPassListedTwice :
    let event : Event := .custom "n" ""
    let b := stepped { maxSize := 10 } [.push 1 0 event, .push 2 0 event, .push 1 0 event]
    let present := b.records.map Record.pass
    b.passes = [1, 2, 1] ∧ present.eraseDups = [1, 2] ∧
      b.stats.passCount = 3 ∧ present.toFinset.card = 2 := by
  decide

end OpNet.Trace.Buffer
