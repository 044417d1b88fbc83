import Mathlib.Data.Bool.Count
import Mathlib.Data.List.Count

/-! The majority of the first `w` readings of a sequence against that of its last `w`: where the
two differ, the sequence has turned from the one to the other. -/
namespace Majority

def mostly (rs : List Bool) : Bool := decide (2 * rs.count true > rs.length)

def first (w : Nat) (rs : List Bool) : List Bool := rs.take w

def last (w : Nat) (rs : List Bool) : List Bool := rs.drop (rs.length - w)

def turned (w : Nat) (rs : List Bool) : Option Bool :=
  if mostly (first w rs) ≠ mostly (last w rs) then some (mostly (first w rs)) else none

variable {w : Nat} {rs : List Bool} {r : Bool}

theorem firstLength (long : w ≤ rs.length) : (first w rs).length = w := by
  rw [first,List.length_take,Nat.min_eq_left long]

theorem lastLength (long : w ≤ rs.length) : (last w rs).length = w := by
  rw [last,List.length_drop,Nat.sub_sub_self long]

theorem shortSame (short : rs.length ≤ w) : first w rs = rs ∧ last w rs = rs := by
  rw [first,last,Nat.sub_eq_zero_of_le short]
  exact ⟨List.take_of_length_le short,List.drop_zero⟩

theorem turnedIff : turned w rs = some r ↔ mostly (first w rs) = r ∧ mostly (last w rs) = !r := by
  rw [turned]
  cases mostly (first w rs) <;> cases mostly (last w rs) <;> cases r <;> decide

theorem mostlyReverse (rs : List Bool) : mostly rs.reverse = mostly rs := by
  rw [mostly,mostly,List.count_reverse,List.length_reverse]

theorem firstReverse (w : Nat) (rs : List Bool) : mostly (first w rs.reverse) = mostly (last w rs) := by
  rw [first,List.take_reverse,mostlyReverse,last]

theorem lastReverse (w : Nat) (rs : List Bool) : mostly (last w rs.reverse) = mostly (first w rs) := by
  rw [← firstReverse,List.reverse_reverse]

theorem turnedReverse (w : Nat) (rs : List Bool) : turned w rs.reverse = (turned w rs).map not := by
  rw [turned,turned,firstReverse,lastReverse]
  cases mostly (first w rs) <;> cases mostly (last w rs) <;> rfl

theorem mostlyNot (noTie : rs.length % 2 = 1) : mostly (rs.map not) = !mostly rs := by
  have total := List.count_not_add_count rs true
  have exchanged : (rs.map not).count true = rs.count false :=
    List.count_map_of_injective rs not (fun _ _ => Bool.not_inj) false
  have other : rs.count (!true) = rs.count false := rfl
  rw [mostly,mostly,exchanged,List.length_map,← decide_not,decide_eq_decide]
  omega

theorem firstNot (w : Nat) (rs : List Bool) : first w (rs.map not) = (first w rs).map not := by
  rw [first,first,List.map_take]

theorem lastNot (w : Nat) (rs : List Bool) : last w (rs.map not) = (last w rs).map not := by
  rw [last,last,List.map_drop,List.length_map]

theorem turnedNot (odd : w % 2 = 1) (rs : List Bool) : turned w (rs.map not) = (turned w rs).map not := by
  by_cases long : w ≤ rs.length
  · rw [turned,turned,firstNot,lastNot,mostlyNot (by rw [firstLength long]; exact odd),
      mostlyNot (by rw [lastLength long]; exact odd)]
    cases mostly (first w rs) <;> cases mostly (last w rs) <;> rfl
  · have same := shortSame (Nat.le_of_not_le long)
    have mapped := @shortSame w (rs.map not) (by rw [List.length_map]; exact Nat.le_of_not_le long)
    rw [turned,turned,same.1,same.2,mapped.1,mapped.2,if_neg (not_not_intro rfl),
      if_neg (not_not_intro rfl)]
    rfl

theorem mostlyOf (more : rs.length < 2 * rs.count r) : mostly rs = r := by
  have total := List.count_not_add_count rs r
  cases r with
  | true => exact decide_eq_true more
  | false =>
    refine decide_eq_false ?_
    simp only [Bool.not_false] at total
    omega

theorem mostlyFirst {n : Nat} (some_window : 0 < w) (enough : w < 2 * n) (rest : List Bool)
    (long : w ≤ n + rest.length) : mostly (first w (List.replicate n r ++ rest)) = r := by
  refine mostlyOf ?_
  have front : (List.replicate (min w n) r).count r ≤ (first w (List.replicate n r ++ rest)).count r := by
    rw [first,List.take_append,List.take_replicate]
    exact (List.sublist_append_left _ _).count_le r
  rw [List.count_replicate_self] at front
  rw [firstLength (by rw [List.length_append,List.length_replicate]; exact long)]
  omega

theorem turnedPassage {n m : Nat} (some_window : 0 < w) (begins : w < 2 * n) (ends : w < 2 * m)
    (between : List Bool) (r : Bool) :
    turned w (List.replicate n r ++ between ++ List.replicate m (!r)) = some r := by
  refine turnedIff.mpr ⟨?_,?_⟩
  · rw [List.append_assoc]
    refine mostlyFirst some_window begins _ ?_
    rw [List.length_append,List.length_replicate]
    omega
  · rw [← firstReverse,List.reverse_append,List.reverse_replicate]
    refine mostlyFirst some_window ends _ ?_
    rw [List.length_reverse,List.length_append,List.length_replicate]
    omega

end Majority
