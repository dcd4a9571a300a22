/-!
# Sorting short lists

Insertion sort by an order given as a test, and sorted lists of numbers
without repeats. Values that the order does not tell apart keep their places
relative to each other.
-/

namespace GraphGrammar

variable {α : Type}

/-- Puts a value before the first one of a list that may come after it. -/
def insertBy (le : α → α → Bool) (a : α) : List α → List α
  | [] => [a]
  | b :: rest => if le a b then a :: b :: rest else b :: insertBy le a rest

/-- The values of a list in order. -/
def sortBy (le : α → α → Bool) (values : List α) : List α :=
  values.foldr (insertBy le) []

theorem perm_insertBy (le : α → α → Bool) (a : α) :
    (values : List α) → (insertBy le a values).Perm (a :: values)
  | [] => .refl _
  | b :: rest => by
    unfold insertBy
    split
    · exact .refl _
    · exact ((perm_insertBy le a rest).cons b).trans (.swap a b rest)

/-- Sorting loses nothing and adds nothing. -/
theorem perm_sortBy (le : α → α → Bool) : (values : List α) → (sortBy le values).Perm values
  | [] => .refl _
  | a :: rest => (perm_insertBy le a _).trans ((perm_sortBy le rest).cons a)

/-- Puts a number into an ascending list unless it is there. -/
def insertNumber (n : Nat) : List Nat → List Nat
  | [] => [n]
  | m :: rest =>
    if n < m then n :: m :: rest
    else if n = m then m :: rest
    else m :: insertNumber n rest

/-- The numbers of a list in ascending order, repeats removed. -/
def ascending (numbers : List Nat) : List Nat := numbers.foldr insertNumber []

theorem mem_insertNumber {n k : Nat} :
    {numbers : List Nat} → (k ∈ insertNumber n numbers ↔ k = n ∨ k ∈ numbers)
  | [] => by simp [insertNumber]
  | m :: rest => by
    unfold insertNumber
    split
    · simp
    · split
      · rename_i h
        simp [h]
      · rw [List.mem_cons, List.mem_cons, mem_insertNumber, or_left_comm]

/-- A number is in the ascending list exactly when it is in the list. -/
theorem mem_ascending {k : Nat} {numbers : List Nat} : k ∈ ascending numbers ↔ k ∈ numbers := by
  induction numbers with
  | nil => simp [ascending]
  | cons n rest ih =>
    show k ∈ insertNumber n (ascending rest) ↔ k ∈ n :: rest
    rw [mem_insertNumber, ih, List.mem_cons]

theorem pairwise_insertNumber {n : Nat} :
    {numbers : List Nat} → numbers.Pairwise (· < ·) → (insertNumber n numbers).Pairwise (· < ·)
  | [], _ => by simp [insertNumber]
  | m :: rest, h => by
    have hrest := List.pairwise_cons.1 h
    unfold insertNumber
    split
    · rename_i hlt
      refine List.pairwise_cons.2 ⟨fun k hk => ?_, h⟩
      rcases List.mem_cons.1 hk with rfl | hk
      · exact hlt
      · exact Nat.lt_trans hlt (hrest.1 k hk)
    · split
      · exact h
      · refine List.pairwise_cons.2 ⟨fun k hk => ?_, pairwise_insertNumber hrest.2⟩
        rcases mem_insertNumber.1 hk with rfl | hk
        · omega
        · exact hrest.1 k hk

/-- The ascending list ascends strictly. -/
theorem pairwise_ascending (numbers : List Nat) : (ascending numbers).Pairwise (· < ·) := by
  induction numbers with
  | nil => exact .nil
  | cons n rest ih => exact pairwise_insertNumber ih

end GraphGrammar
