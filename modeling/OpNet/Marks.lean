/-!
Sets of indices below a bound, as one mark for each.
-/
namespace OpNet

abbrev Marks := Array Bool

namespace Marks

def has (marks : Marks) (i : Nat) : Bool := marks.getD i false

def add (marks : Marks) (members : List Nat) : Marks :=
  members.foldl (fun marks i => marks.setIfInBounds i true) marks

def ofList (bound : Nat) (members : List Nat) : Marks := add (Array.replicate bound false) members

@[simp] theorem sizeAdd (marks : Marks) (members : List Nat) :
    (marks.add members).size = marks.size := by
  unfold add
  induction members generalizing marks with
  | nil => rfl
  | cons i rest ih => simp [ih]

theorem hasAdd (marks : Marks) (members : List Nat) (i : Nat) :
    (marks.add members).has i =
      (marks.has i || (members.contains i && decide (i < marks.size))) := by
  unfold add
  induction members generalizing marks with
  | nil => simp
  | cons j rest ih =>
    rw [List.foldl_cons, ih]
    by_cases same : j = i
    · subst same
      by_cases inside : j < marks.size <;> simp [has, inside]
    · simp [has, same, Ne.symm same]

theorem hasOfList {bound i : Nat} {members : List Nat} :
    (ofList bound members).has i = true ↔ i ∈ members ∧ i < bound := by
  have blank : has (Array.replicate bound false) i = false := by
    by_cases inside : i < bound <;> simp [has, inside]
  rw [ofList, hasAdd, blank]
  simp

end Marks

end OpNet
