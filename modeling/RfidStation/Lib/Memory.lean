import Mathlib.Data.List.Basic

/-! A memory of cells, the stretches of it that are read, and writes to it. -/
namespace Memory
variable {β : Type}

def slice (mem : Nat → β) (start n : Nat) : List β := (List.range n).map (fun i => mem (start + i))

def write (mem : Nat → β) (start : Nat) (cells : List β) : Nat → β :=
  fun i => if start ≤ i then (cells[i - start]?).getD (mem i) else mem i

@[simp] theorem sliceLength (mem : Nat → β) (start n : Nat) : (slice mem start n).length = n := by
  simp [slice]

theorem sliceAppend (mem : Nat → β) (start n m : Nat) :
    slice mem start (n + m) = slice mem start n ++ slice mem (start + n) m := by
  rw [slice,List.range_add,List.map_append,List.map_map]
  simp only [slice,Function.comp_def,Nat.add_assoc]

theorem sliceTake (mem : Nat → β) (start : Nat) {n m : Nat} (le : m ≤ n) :
    (slice mem start n).take m = slice mem start m := by
  obtain ⟨k,rfl⟩ := Nat.exists_eq_add_of_le le
  rw [sliceAppend,List.take_left' (sliceLength ..)]

theorem sliceDrop (mem : Nat → β) (start : Nat) {n m : Nat} (le : m ≤ n) :
    (slice mem start n).drop m = slice mem (start + m) (n - m) := by
  obtain ⟨k,rfl⟩ := Nat.exists_eq_add_of_le le
  rw [sliceAppend,List.drop_left' (sliceLength ..),Nat.add_sub_cancel_left]

theorem sliceWrite (mem : Nat → β) (start : Nat) (cells : List β) :
    slice (write mem start cells) start cells.length = cells := by
  refine List.ext_getElem (sliceLength ..) (fun i _ inside => ?_)
  simp [slice,write,inside]

def Apart (start n at_ m : Nat) : Prop := start + n ≤ at_ ∨ at_ + m ≤ start

instance (start n at_ m : Nat) : Decidable (Apart start n at_ m) := inferInstanceAs (Decidable (_ ∨ _))

theorem sliceApart (mem : Nat → β) {start n at_ : Nat} (cells : List β)
    (apart : Apart start n at_ cells.length) : slice (write mem at_ cells) start n = slice mem start n := by
  refine List.map_congr_left (fun i inside => ?_)
  have within := List.mem_range.mp inside
  unfold write
  split
  · have behind : cells.length ≤ start + i - at_ := by
      rcases apart with below | above <;> omega
    rw [List.getElem?_eq_none behind]
    rfl
  · rfl

theorem sliceBelow (mem : Nat → β) {start n at_ : Nat} (cells : List β) (below : start + n ≤ at_) :
    slice (write mem at_ cells) start n = slice mem start n := sliceApart mem cells (.inl below)

theorem sliceInside (mem : Nat → β) (start k : Nat) {n : Nat} (cells : List β) (inside : k + cells.length ≤ n) :
    slice (write mem (start + k) cells) start n =
      (slice mem start n).take k ++ cells ++ (slice mem start n).drop (k + cells.length) := by
  obtain ⟨r,rfl⟩ := Nat.exists_eq_add_of_le inside
  have behind : slice (write mem (start + k) cells) (start + (k + cells.length)) r =
      slice mem (start + (k + cells.length)) r := sliceApart mem cells (.inr (by omega))
  rw [sliceAppend,sliceAppend,sliceBelow mem cells (Nat.le_refl _),sliceWrite,behind,
    sliceTake _ _ (by omega),sliceDrop _ _ (by omega),Nat.add_sub_cancel_left]

theorem sliceExtend {mem : Nat → β} {start n : Nat} {xs : List β} (cells : List β)
    (there : slice mem start n = xs.take n) (next : cells = (xs.drop n).take cells.length) :
    slice (write mem (start + n) cells) start (n + cells.length) = xs.take (n + cells.length) := by
  rw [sliceAppend,sliceBelow _ _ (Nat.le_refl _),sliceWrite,there,List.take_add]
  exact congrArg _ next

end Memory
