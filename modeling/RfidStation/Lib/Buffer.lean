import Mathlib.Data.List.Basic

/-! A growable buffer: its contents and a capacity that they fit. An append that does not
fit grows the capacity to `(capacity + need) * 2`; contents leave at the tail. -/
namespace Buffers
variable {β : Type}

def grow (length need capacity : Nat) : Nat :=
  if length + need > capacity then (capacity + need) * 2 else capacity

theorem growEnough (length need : Nat) {capacity : Nat} (fits : length ≤ capacity) :
    length + need ≤ grow length need capacity := by
  unfold grow
  split <;> omega

theorem growKeeps (length need capacity : Nat) : capacity ≤ grow length need capacity := by
  unfold grow
  split <;> omega

theorem growBelow {length need bound : Nat} (room : length + need ≤ bound) {capacity : Nat}
    (small : capacity < 4 * bound) : grow length need capacity < 4 * bound := by
  unfold grow
  split <;> omega

structure Buffer (β : Type) where
  cells : List β
  capacity : Nat
  fits : cells.length ≤ capacity
  deriving DecidableEq, Repr

def empty : Buffer β := ⟨[],0,Nat.le_refl 0⟩

def Buffer.append (b : Buffer β) (xs : List β) : Buffer β :=
  ⟨b.cells ++ xs,grow b.cells.length xs.length b.capacity,by
    rw [List.length_append]; exact growEnough _ _ b.fits⟩

def Buffer.tail (b : Buffer β) (n : Nat) : List β := b.cells.drop (b.cells.length - n)

def Buffer.shrink (b : Buffer β) (n : Nat) : Buffer β :=
  ⟨b.cells.take (b.cells.length - n),b.capacity,
    Nat.le_trans (List.length_take_le' _ _) b.fits⟩

@[simp] theorem appendCells (b : Buffer β) (xs : List β) : (b.append xs).cells = b.cells ++ xs := rfl

theorem shrinkTail (b : Buffer β) (n : Nat) : (b.shrink n).cells ++ b.tail n = b.cells :=
  List.take_append_drop _ _

theorem tailLength {b : Buffer β} {n : Nat} (inside : n ≤ b.cells.length) :
    (b.tail n).length = n := by
  rw [Buffer.tail,List.length_drop]; omega

theorem shrinkAll (b : Buffer β) : (b.shrink b.cells.length).cells = [] := by
  simp [Buffer.shrink]

end Buffers
