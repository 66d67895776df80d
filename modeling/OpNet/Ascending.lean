/-!
Finite sets and maps kept as ascending lists: node indices, edge labels, operator arguments,
catalogue keys. Inserting keeps the order and never repeats a member, so a list is the one
written form of its set and iteration goes from least to greatest.
-/
namespace OpNet.Ascending

def insert [Ord α] (a : α) : List α → List α
  | [] => [a]
  | b :: rest =>
    match compare a b with
    | .lt => a :: b :: rest
    | .eq => b :: rest
    | .gt => b :: insert a rest

def ofList [Ord α] (xs : List α) : List α :=
  xs.foldr insert []

def put [Ord κ] (key : κ) (value : ν) : List (κ × ν) → List (κ × ν)
  | [] => [(key, value)]
  | entry :: rest =>
    match compare key entry.1 with
    | .lt => (key, value) :: entry :: rest
    | .eq => (key, value) :: rest
    | .gt => entry :: put key value rest

/-- The map that gives each key the last of its values. -/
def ofPairs [Ord κ] (entries : List (κ × ν)) : List (κ × ν) :=
  entries.foldl (fun map entry => put entry.1 entry.2 map) []

section
variable [Ord α] [Std.LawfulEqOrd α]

theorem memInsert {a x : α} {xs : List α} : x ∈ insert a xs ↔ x = a ∨ x ∈ xs := by
  induction xs with
  | nil => simp [insert]
  | cons b rest ih =>
    simp only [insert]
    split
    · simp
    · rename_i same
      have eq := Std.LawfulEqOrd.eq_of_compare same
      subst eq
      simp
    · simp only [List.mem_cons, ih]
      constructor
      · rintro (h | h | h) <;> simp [h]
      · rintro (h | h | h) <;> simp [h]

theorem memOfList {x : α} {xs : List α} : x ∈ ofList xs ↔ x ∈ xs := by
  induction xs with
  | nil => simp [ofList]
  | cons a rest ih =>
    have step : ofList (a :: rest) = insert a (ofList rest) := rfl
    rw [step, memInsert, ih, List.mem_cons]

end

def Sorted [Ord α] (xs : List α) : Prop :=
  xs.Pairwise fun a b => compare a b = .lt

theorem sortedInsert [Ord α] [Std.LawfulEqOrd α] [Std.TransOrd α] {a : α} {xs : List α}
    (sorted : Sorted xs) : Sorted (insert a xs) := by
  induction xs with
  | nil => simp [insert, Sorted]
  | cons b rest ih =>
    obtain ⟨least, tail⟩ := List.pairwise_cons.mp sorted
    simp only [insert]
    split
    · rename_i less
      refine List.pairwise_cons.mpr ⟨fun x hx => ?_, sorted⟩
      rcases List.mem_cons.mp hx with rfl | hx
      · exact less
      · exact Std.TransCmp.lt_trans less (least x hx)
    · exact sorted
    · rename_i greater
      refine List.pairwise_cons.mpr ⟨fun x hx => ?_, ih tail⟩
      rcases memInsert.mp hx with rfl | hx
      · exact Std.OrientedCmp.lt_of_gt greater
      · exact least x hx

theorem sortedOfList [Ord α] [Std.LawfulEqOrd α] [Std.TransOrd α] (xs : List α) :
    Sorted (ofList xs) := by
  induction xs with
  | nil => simp [ofList, Sorted]
  | cons a rest ih => exact sortedInsert ih

theorem Sorted.nodup [Ord α] [Std.LawfulEqOrd α] {xs : List α} (sorted : Sorted xs) : xs.Nodup := by
  refine List.Pairwise.imp (fun less same => ?_) sorted
  subst same
  simp [Std.ReflCmp.compare_self] at less

theorem Sorted.ext [Ord α] [Std.LawfulEqOrd α] [Std.TransOrd α] {xs ys : List α}
    (left : Sorted xs) (right : Sorted ys) (same : ∀ x, x ∈ xs ↔ x ∈ ys) : xs = ys := by
  have perm : xs.Perm ys := (List.perm_ext_iff_of_nodup left.nodup right.nodup).mpr same
  refine List.Perm.eq_of_pairwise (fun a b _ _ less more => ?_) left right perm
  have swap : compare a b = (compare b a).swap := Std.OrientedCmp.eq_swap
  rw [swap, more] at less
  cases less

end OpNet.Ascending
