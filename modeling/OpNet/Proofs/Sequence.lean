import OpNet.Proofs.Admissible
import Mathlib.Data.List.Induction
import Mathlib.Data.List.Perm.Subperm

/-!
What a search explores, read off the graph and the rule alone: sequences of free nodes, each offered
by the strategy and accepted after those before it. `Admissible` follows the search's own list of
candidates; here, what the search asks for next is proved to be exactly what may follow.
-/
namespace OpNet

namespace Strategy
variable (g : Graph)

def Offers (grown : List Nat) (i : Nat) : Strategy → Prop
  | connected => ∃ m ∈ grown, i ∈ (g.children m).nodes ∨ i ∈ (g.parents m).nodes
  | ordered => ∀ last, grown.getLast? = some last → last < i
  | unrestricted => True

end Strategy

namespace Search

/-- The node sequences from `start` that a search may go through when the nodes `claimed` belong to
earlier matches. -/
inductive Sequence (g : Graph) (rule : Rule) (strategy : Strategy) (claimed : List Nat)
    (start : Nat) : List Nat → Prop where
  | one (node : start < g.size) (free : start ∉ claimed)
      (accepted : rule.accept g [] start = true) : Sequence g rule strategy claimed start [start]
  | more {grown i} (before : Sequence g rule strategy claimed start grown) (node : i < g.size)
      (offered : strategy.Offers g grown i) (new : i ∉ grown) (free : i ∉ claimed)
      (accepted : rule.accept g grown i = true) :
      Sequence g rule strategy claimed start (grown ++ [i])

section
variable {g : Graph} {rule : Rule} {strategy : Strategy} {claimed taken nodes grown : List Nat}
  {start i k : Nat}

theorem lengthBelow {bound : Nat} (nodup : nodes.Nodup) (below : ∀ i ∈ nodes, i < bound) :
    nodes.length ≤ bound := by
  have inside : nodes ⊆ List.range bound := fun i mem => List.mem_range.mpr (below i mem)
  simpa using (nodup.subperm inside).length_le

namespace Sequence

theorem head (seq : Sequence g rule strategy claimed start nodes) : nodes.head? = some start := by
  induction seq with
  | one => rfl
  | more before _ _ _ _ _ ih => rw [List.head?_append, ih]; rfl

theorem nonempty (seq : Sequence g rule strategy claimed start nodes) : nodes ≠ [] := by
  cases seq with
  | one => simp
  | more => simp

theorem accepted (seq : Sequence g rule strategy claimed start nodes) :
    rule.accept g [] start = true := by
  induction seq with
  | one _ _ accepted => exact accepted
  | more _ _ _ _ _ _ ih => exact ih

theorem free (seq : Sequence g rule strategy claimed start nodes) :
    ∀ i ∈ nodes, i < g.size ∧ i ∉ claimed := by
  induction seq with
  | one node free _ => exact List.forall_mem_singleton.mpr ⟨node, free⟩
  | more _ node _ _ free _ ih =>
    exact List.forall_mem_append.mpr ⟨ih, List.forall_mem_singleton.mpr ⟨node, free⟩⟩

theorem nodup (seq : Sequence g rule strategy claimed start nodes) : nodes.Nodup := by
  induction seq with
  | one => simp
  | more _ _ _ new _ _ ih =>
    refine List.nodup_append.mpr ⟨ih, by simp, fun m mem last same => ?_⟩
    rw [List.mem_singleton.mp same]
    exact fun again => new (again ▸ mem)

theorem length (seq : Sequence g rule strategy claimed start nodes) : nodes.length ≤ g.size :=
  lengthBelow seq.nodup fun i mem => (seq.free i mem).1

theorem stepAt (seq : Sequence g rule strategy claimed start nodes) (here : nodes[k]? = some i) :
    rule.accept g (nodes.take k) i = true ∧ (0 < k → strategy.Offers g (nodes.take k) i) := by
  induction seq with
  | one _ _ accepted =>
    cases k with
    | zero =>
      cases Option.some.inj here
      exact ⟨accepted, fun first => absurd first (Nat.lt_irrefl 0)⟩
    | succ k => simp at here
  | @more grown last before _ offered _ _ accepted ih =>
    rcases Nat.lt_trichotomy k grown.length with old | rfl | out
    · rw [List.getElem?_append_left old] at here
      rw [List.take_append_of_le_length (Nat.le_of_lt old)]
      exact ih here
    · rw [List.getElem?_concat_length] at here
      cases Option.some.inj here
      rw [List.take_left]
      exact ⟨accepted, fun _ => offered⟩
    · have bound := (List.getElem?_eq_some_iff.mp here).1
      rw [List.length_append, List.length_singleton] at bound
      omega

theorem ascending (seq : Sequence g rule .ordered claimed start nodes) :
    nodes.Pairwise (· < ·) := by
  induction seq with
  | one => exact List.pairwise_singleton _ _
  | more before _ offered _ _ _ ih =>
    obtain ⟨previous, found⟩ := existsLast before.nonempty
    exact ascendingNext ih found (offered previous found)

end Sequence

theorem memCandidates {taken : Marks} (ascending : strategy = .ordered → grown.Pairwise (· < ·)) :
    i ∈ candidates g taken grown strategy ↔
      i < g.size ∧ strategy.Offers g grown i ∧ i ∉ grown ∧ taken.has i = false := by
  cases strategy with
  | connected =>
    simp only [candidates, List.mem_filter, List.mem_flatMap, List.mem_append, Bool.and_eq_true,
      Bool.not_eq_true', List.contains_eq_mem, decide_eq_true_eq, decide_eq_false_iff_not,
      Strategy.Offers]
    constructor
    · intro h
      obtain ⟨offered, ⟨new, free⟩, node⟩ := h
      exact ⟨node, offered, new, free⟩
    · intro h
      obtain ⟨node, offered, new, free⟩ := h
      exact ⟨offered, ⟨new, free⟩, node⟩
  | ordered =>
    simp only [candidates, List.mem_filter, List.mem_range'_1, Bool.not_eq_true', Strategy.Offers]
    cases found : grown.getLast? with
    | none =>
      rw [List.getLast?_eq_none_iff] at found
      simp [found]
    | some last =>
      simp only [Option.map_some, Option.getD_some, Option.some.injEq, forall_eq']
      constructor
      · intro h
        obtain ⟨⟨less, bound⟩, free⟩ := h
        refine ⟨by omega, less, fun mem => ?_, free⟩
        have atMost := atMostLast (ascending rfl) found mem
        omega
      · intro h
        obtain ⟨node, less, _, free⟩ := h
        exact ⟨by omega, free⟩
  | unrestricted =>
    simp [candidates, Strategy.Offers]

theorem freeIff (node : i < g.size) :
    (Marks.ofList g.size claimed).has i = false ↔ i ∉ claimed := by
  rw [← Bool.not_eq_true, Marks.hasOfList]
  simp [node]

namespace Sequence

theorem offeredIff (seq : Sequence g rule strategy claimed start grown) :
    i ∈ candidates g (.ofList g.size claimed) grown strategy ↔
      i < g.size ∧ strategy.Offers g grown i ∧ i ∉ grown ∧ i ∉ claimed := by
  rw [memCandidates fun same => (same ▸ seq).ascending]
  constructor
  · intro h
    obtain ⟨node, offered, new, free⟩ := h
    exact ⟨node, offered, new, (freeIff node).mp free⟩
  · intro h
    obtain ⟨node, offered, new, free⟩ := h
    exact ⟨node, offered, new, (freeIff node).mpr free⟩

theorem grow (seq : Sequence g rule strategy claimed start grown)
    (offered : i ∈ candidates g (.ofList g.size claimed) grown strategy)
    (accepted : rule.accept g grown i = true) :
    Sequence g rule strategy claimed start (grown ++ [i]) := by
  obtain ⟨node, follows, new, free⟩ := seq.offeredIff.mp offered
  exact .more seq node follows new free accepted

theorem full (seq : Sequence g rule strategy claimed start grown) (all : g.size ≤ grown.length) :
    candidates g (.ofList g.size claimed) grown strategy = [] := by
  refine List.eq_nil_iff_forall_not_mem.mpr fun i offered => ?_
  obtain ⟨node, _, new, _⟩ := seq.offeredIff.mp offered
  have longer : (i :: grown).length ≤ g.size :=
    lengthBelow (List.nodup_cons.mpr ⟨new, seq.nodup⟩)
      (List.forall_mem_cons.mpr ⟨node, fun j mem => (seq.free j mem).1⟩)
  rw [List.length_cons] at longer
  omega

theorem before (seq : Sequence g rule strategy claimed start (grown ++ [i])) (some : grown ≠ []) :
    Sequence g rule strategy claimed start grown ∧
      i ∈ candidates g (.ofList g.size claimed) grown strategy ∧
      rule.accept g grown i = true := by
  generalize same : grown ++ [i] = nodes at seq
  cases seq with
  | one =>
    have short := congrArg List.length same
    have long := List.length_pos_iff.mpr some
    simp only [List.length_append, List.length_singleton] at short
    omega
  | @more stem j seq node offered new free accepted =>
    obtain ⟨rfl, last⟩ := List.append_inj' same rfl
    cases last
    exact ⟨seq, seq.offeredIff.mpr ⟨node, offered, new, free⟩, accepted⟩

theorem cut {stem rest : List Nat} (some : stem ≠ [])
    (seq : Sequence g rule strategy claimed start (stem ++ i :: rest)) :
    Sequence g rule strategy claimed start stem ∧
      i ∈ candidates g (.ofList g.size claimed) stem strategy ∧
      rule.accept g stem i = true := by
  rcases List.eq_nil_or_concat rest with rfl | ⟨front, last, rfl⟩
  · exact seq.before some
  · rw [List.concat_eq_append, ← List.cons_append, ← List.append_assoc] at seq
    have shorter := (seq.before (by simp)).1
    exact cut some shorter
termination_by rest.length

theorem ofSteps (head : nodes.head? = some start) (nodup : nodes.Nodup)
    (free : ∀ i ∈ nodes, i < g.size ∧ i ∉ claimed)
    (accepted : ∀ k i, nodes[k]? = some i → rule.accept g (nodes.take k) i = true)
    (offered : ∀ k i, 0 < k → nodes[k]? = some i → strategy.Offers g (nodes.take k) i) :
    Sequence g rule strategy claimed start nodes := by
  induction nodes using List.reverseRecOn with
  | nil => cases head
  | append_singleton front last ih =>
    have inside := free last (by simp)
    have asked := accepted front.length last (by simp)
    rw [List.take_left] at asked
    rcases List.eq_nil_or_concat front with rfl | ⟨_, _, same⟩
    · cases head
      exact .one inside.1 inside.2 asked
    · have some : front ≠ [] := by simp [same]
      have follows := offered front.length last (List.length_pos_iff.mpr some) (by simp)
      rw [List.take_left] at follows
      obtain ⟨fresh, _, apart⟩ := List.nodup_append.mp nodup
      have old : ∀ k i, front[k]? = .some i → (front ++ [last])[k]? = .some i ∧
          (front ++ [last]).take k = front.take k := fun k i here => by
        have bound := (List.getElem?_eq_some_iff.mp here).1
        exact ⟨by rw [List.getElem?_append_left bound, here],
          List.take_append_of_le_length (Nat.le_of_lt bound)⟩
      have shorter : Sequence g rule strategy claimed start front := by
        apply ih (by rwa [List.head?_append_of_ne_nil _ some] at head) fresh
          fun i mem => free i (List.mem_append_left _ mem)
        · intro k i here
          obtain ⟨there, same⟩ := old k i here
          exact same ▸ accepted k i there
        · intro k i later here
          obtain ⟨there, same⟩ := old k i here
          exact same ▸ offered k i later there
      have new : last ∉ front := fun mem => apart last mem last (by simp) rfl
      exact .more shorter inside.1 follows new inside.2 asked

theorem claim (seq : Sequence g rule strategy claimed start nodes)
    (free : ∀ i ∈ nodes, i ∉ taken) : Sequence g rule strategy taken start nodes := by
  induction seq with
  | one node _ accepted => exact .one node (free _ List.mem_cons_self) accepted
  | more _ node offered new _ accepted ih =>
    exact .more (ih fun i mem => free i (List.mem_append_left _ mem)) node offered new
      (free _ (by simp)) accepted

end Sequence

end

end Search

end OpNet
