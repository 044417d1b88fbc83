import Mathlib.Data.List.TakeWhile

/-! A stream as lines that end in a separator, and what follows the last separator; and the
two sides of the first one. -/
namespace Lines
variable {α : Type}

def joined (sep : α) (lines : List (List α)) : List α := lines.flatMap (fun l => l ++ [sep])

theorem joinedIntercalate {sep : α} (lines : List (List α)) (tail : List α) :
    joined sep lines ++ tail = [sep].intercalate (lines ++ [tail]) := by
  induction lines with
  | nil => simp [joined]
  | cons l rest ih =>
    have more : rest ++ [tail] ≠ [] := by simp
    rw [List.cons_append,List.intercalate_cons_of_ne_nil more,← ih,joined,joined,List.flatMap_cons]
    simp only [List.append_assoc]

variable [BEq α]

def whole (sep : α) (s : List α) : List (List α) := (s.splitOn sep).dropLast

def last (sep : α) (s : List α) : List α := (s.splitOn sep).getLast (List.splitOn_ne_nil sep s)

def before (sep : α) (s : List α) : List α := s.takeWhile (· != sep)

def after (sep : α) (s : List α) : List α := (s.dropWhile (· != sep)).tail

theorem afterSubset {sep : α} {s : List α} : after sep s ⊆ s :=
  fun _ mem => List.dropWhile_subset _ (List.mem_of_mem_tail mem)

def continued (sep : α) (begun s : List α) : List (List α) := (s.splitOn sep).modifyHead (begun ++ ·)

theorem continuedNil {sep : α} (begun : List α) : continued sep begun [] = [begun] := by simp [continued]

theorem continuedEmpty {sep : α} (s : List α) : continued sep [] s = s.splitOn sep := by
  cases shape : s.splitOn sep <;> simp [continued,shape]

variable [LawfulBEq α] {sep : α} {s : List α}

theorem joinedWhole (sep : α) (s : List α) : joined sep (whole sep s) ++ last sep s = s := by
  rw [joinedIntercalate,whole,last,List.dropLast_concat_getLast]
  exact List.intercalate_splitOn sep

theorem partWithout : ∀ l ∈ s.splitOn sep, sep ∉ l := by
  induction s with
  | nil => simp
  | cons b rest ih =>
    rw [List.splitOn_cons_eq_if_modifyHead]
    split
    · intro l mem
      rcases List.mem_cons.mp mem with rfl | later
      · exact List.not_mem_nil
      · exact ih l later
    · rename_i other
      obtain ⟨l,more,shape⟩ := List.exists_cons_of_ne_nil (List.splitOn_ne_nil sep rest)
      rw [shape] at ih ⊢
      rw [List.modifyHead_cons]
      intro m mem
      rcases List.mem_cons.mp mem with rfl | later
      · have differs : sep ≠ b := fun same => other (by rw [same]; exact BEq.rfl)
        exact List.not_mem_cons_of_ne_of_not_mem differs (ih l List.mem_cons_self)
      · exact ih m (List.mem_cons_of_mem l later)

theorem wholeWithout (sep : α) (s : List α) : ∀ l ∈ whole sep s, sep ∉ l :=
  fun l mem => partWithout l (List.dropLast_subset _ mem)

theorem lastWithout : sep ∉ last sep s := partWithout _ (List.getLast_mem _)

theorem beforeWithout : sep ∉ before sep s := by
  intro mem
  have differs := List.mem_takeWhile_imp mem
  simp at differs

theorem beforeWhole (absent : sep ∉ s) : before sep s = s :=
  List.takeWhile_eq_self_iff.mpr (fun _ mem => bne_iff_ne.mpr (fun same => absent (same ▸ mem)))

theorem beforeHead {b : α} (differs : b ≠ sep) :
    (before sep s).head? = some b ↔ s.head? = some b := by
  cases s with
  | nil => rfl
  | cons c rest =>
    rw [before,List.takeWhile_cons]
    split
    · rfl
    · rename_i same
      have ends : c = sep := by simpa using same
      simp [ends,Ne.symm differs]

theorem atFirst (present : sep ∈ s) : before sep s ++ sep :: after sep s = s := by
  have some_left : s.dropWhile (· != sep) ≠ [] := by
    rw [ne_eq,List.dropWhile_eq_nil_iff]
    exact fun all => by simpa using all sep present
  obtain ⟨b,rest,shape⟩ := List.exists_cons_of_ne_nil some_left
  have first : b = sep := by
    have found := List.head_dropWhile_not (· != sep) some_left
    simpa [shape] using found
  have parts := List.takeWhile_append_dropWhile (p := (· != sep)) (l := s)
  rw [shape,first] at parts
  rw [before,after,shape]
  exact parts

theorem continuedSep (begun rest : List α) :
    continued sep begun (sep :: rest) = begun :: continued sep [] rest := by
  rw [continuedEmpty,continued,List.splitOn_cons_eq_if_modifyHead,if_pos BEq.rfl]
  simp

theorem continuedOther {b : α} (other : b ≠ sep) (begun rest : List α) :
    continued sep begun (b :: rest) = continued sep (begun ++ [b]) rest := by
  have differs : ¬ (b == sep) = true := fun same => other (beq_iff_eq.mp same)
  obtain ⟨part,more,shape⟩ := List.exists_cons_of_ne_nil (List.splitOn_ne_nil sep rest)
  rw [continued,continued,List.splitOn_cons_eq_if_modifyHead,if_neg differs,shape]
  simp

theorem firstLength (present : sep ∈ s) :
    (before sep s).length + ((after sep s).length + 1) = s.length := by
  rw [← List.length_cons,← List.length_append,atFirst present]

end Lines
