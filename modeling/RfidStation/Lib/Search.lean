import RfidStation.Lib.Cstr
import Mathlib.Data.List.Infix

/-! `strstr` on an array that need not hold a terminating NUL. The search stops at the first
match; `overrun` is a search that reaches the end of the array with neither a match nor a NUL. -/
namespace Search
open Cstr

inductive Result where
  | here (pos : Nat)
  | absent
  | overrun
  deriving DecidableEq, Repr

def strstrFrom (needle : Bytes) : Nat → Bytes → Result
  | _, [] => .overrun
  | pos, b :: rest =>
      if needle.isPrefixOf (b :: rest) then .here pos
      else if b = 0 then .absent
      else strstrFrom needle (pos + 1) rest

def strstr (memory needle : Bytes) : Result := strstrFrom needle 0 memory

structure Needle (needle : Bytes) : Prop where
  some_byte : needle ≠ []
  chars : ∀ b ∈ needle, b ≠ 0

theorem strstrFromSound {needle s : Bytes} {from_ pos : Nat}
    (found : strstrFrom needle from_ s = .here pos) :
    from_ ≤ pos ∧ needle <+: s.drop (pos - from_) := by
  induction s generalizing from_ with
  | nil => contradiction
  | cons b rest ih =>
    simp only [strstrFrom] at found
    split at found
    · rename_i match_
      cases found
      rw [Nat.sub_self]
      exact ⟨Nat.le_refl _,List.isPrefixOf_iff_prefix.mp match_⟩
    · split at found <;> try contradiction
      obtain ⟨after,inside⟩ := ih found
      obtain ⟨k,rfl⟩ : ∃ k, pos = from_ + 1 + k := ⟨pos - (from_ + 1),by omega⟩
      refine ⟨by omega,?_⟩
      rw [show from_ + 1 + k - from_ = k + 1 by omega,List.drop_succ_cons]
      rwa [Nat.add_sub_cancel_left] at inside

theorem strstrSound {memory needle : Bytes} {pos : Nat} (found : strstr memory needle = .here pos) :
    needle <+: memory.drop pos := (strstrFromSound found).2

theorem strstrFromSome {needle front : Bytes} (tail : Bytes) (text : ∀ b ∈ front, b ≠ 0)
    (from_ : Nat) (isNeedle : Needle needle) :
    ∃ pos, strstrFrom needle from_ (front ++ needle ++ tail) = .here pos ∧
      pos ≤ from_ + front.length := by
  induction front generalizing from_ with
  | nil =>
    cases needle with
    | nil => exact (isNeedle.some_byte rfl).elim
    | cons b rest =>
      refine ⟨from_,?_,Nat.le_refl _⟩
      have starts : (b :: rest).isPrefixOf (b :: (rest ++ tail)) = true :=
        List.isPrefixOf_iff_prefix.mpr ⟨tail,rfl⟩
      simp only [List.nil_append,List.cons_append,strstrFrom,if_pos starts]
  | cons b rest ih =>
    simp only [List.cons_append,strstrFrom]
    split
    · exact ⟨from_,rfl,Nat.le_add_right _ _⟩
    · rw [if_neg (text b List.mem_cons_self)]
      obtain ⟨pos,found,before⟩ := ih (fun c mem => text c (List.mem_cons_of_mem _ mem)) (from_ + 1)
      exact ⟨pos,found,by rw [List.length_cons]; omega⟩

theorem strstrSome {memory needle front tail : Bytes} (split : memory = front ++ needle ++ tail)
    (text : ∀ b ∈ front, b ≠ 0) (isNeedle : Needle needle) :
    ∃ pos, strstr memory needle = .here pos ∧ pos ≤ front.length := by
  obtain ⟨pos,found,before⟩ := strstrFromSome tail text 0 isNeedle
  exact ⟨pos,by rw [split]; exact found,by omega⟩

theorem strstrFirst {memory needle front tail : Bytes} (split : memory = front ++ needle ++ tail)
    (text : ∀ b ∈ front, b ≠ 0) (isNeedle : Needle needle)
    (first : ∀ i < front.length, ¬ needle <+: memory.drop i) :
    strstr memory needle = .here front.length := by
  obtain ⟨pos,found,before⟩ := strstrSome split text isNeedle
  have inside := strstrSound found
  rcases Nat.lt_or_eq_of_le before with earlier | same
  · exact (first pos earlier inside).elim
  · rw [found,same]

theorem prefixText {needle : Bytes} (text : Bytes) {tail : Bytes} (isNeedle : Needle needle)
    (starts : needle <+: text ++ 0 :: tail) : needle <+: text := by
  obtain ⟨rest,same⟩ := starts
  rcases List.append_eq_append_iff.mp same with ⟨m,rfl,_⟩ | ⟨m,rfl,behind⟩
  · exact List.prefix_append needle m
  · cases m with
    | nil => rw [List.append_nil]
    | cons b m =>
      have zero : 0 = b := (List.cons.inj behind).1
      exact absurd zero.symm (isNeedle.chars b (by simp))

theorem strstrAbsent {needle text : Bytes} (tail : Bytes) (isNeedle : Needle needle)
    (text_ : ∀ b ∈ text, b ≠ 0) (outside : ¬ needle <:+: text) :
    strstr (text ++ 0 :: tail) needle = .absent := by
  unfold strstr
  generalize 0 = from_
  induction text generalizing from_ with
  | nil =>
    have no : ¬ needle.isPrefixOf (0 :: tail) = true := fun starts =>
      isNeedle.some_byte (List.prefix_nil.mp
        (prefixText [] isNeedle (List.isPrefixOf_iff_prefix.mp starts)))
    simp [strstrFrom,no]
  | cons b rest ih =>
    have no : ¬ needle.isPrefixOf (b :: (rest ++ 0 :: tail)) = true := fun starts =>
      outside (prefixText (b :: rest) isNeedle
        (List.isPrefixOf_iff_prefix.mp starts)).isInfix
    rw [List.cons_append,strstrFrom,if_neg no,if_neg (text_ b List.mem_cons_self)]
    exact ih (fun c mem => text_ c (List.mem_cons_of_mem _ mem))
      (fun inside => outside (inside.trans (List.suffix_cons b rest).isInfix)) (from_ + 1)

theorem strstrOverrun {needle memory : Bytes} (text : ∀ b ∈ memory, b ≠ 0)
    (outside : ¬ needle <:+: memory) : strstr memory needle = .overrun := by
  unfold strstr
  generalize 0 = from_
  induction memory generalizing from_ with
  | nil => rfl
  | cons b rest ih =>
    have no : ¬ needle.isPrefixOf (b :: rest) = true := fun starts =>
      outside (List.isPrefixOf_iff_prefix.mp starts).isInfix
    rw [strstrFrom,if_neg no,if_neg (text b List.mem_cons_self)]
    exact ih (fun c mem => text c (List.mem_cons_of_mem _ mem))
      (fun inside => outside (inside.trans (List.suffix_cons b rest).isInfix)) (from_ + 1)

theorem strstrInfix {needle text : Bytes} (tail : Bytes) (isNeedle : Needle needle)
    (text_ : ∀ b ∈ text, b ≠ 0) (inside : needle <:+: text) :
    ∃ pos, strstr (text ++ tail) needle = .here pos ∧ pos + needle.length ≤ text.length := by
  obtain ⟨front,back,rfl⟩ := inside
  have split : front ++ needle ++ back ++ tail = front ++ needle ++ (back ++ tail) :=
    List.append_assoc _ _ _
  obtain ⟨pos,here,before⟩ := strstrSome split (fun b mem => text_ b (by simp [mem])) isNeedle
  exact ⟨pos,here,by simp only [List.length_append]; omega⟩

theorem strstrHere {needle memory : Bytes} (isNeedle : Needle needle)
    (inside : needle <:+: cstr memory) : ∃ pos, strstr memory needle = .here pos := by
  obtain ⟨tail,split⟩ := List.takeWhile_prefix (l := memory) (· ≠ 0)
  obtain ⟨pos,here,-⟩ := strstrInfix tail isNeedle cstrChars inside
  rw [cstr,split] at here
  exact ⟨pos,here⟩

theorem strstrNone {needle memory : Bytes} (isNeedle : Needle needle)
    (outside : ¬ needle <:+: cstr memory) :
    strstr memory needle = if 0 ∈ memory then .absent else .overrun := by
  split
  · rename_i ended
    obtain ⟨tail,split⟩ := cstrSplit ended
    have absent := strstrAbsent tail isNeedle cstrChars outside
    rwa [← split] at absent
  · rename_i unended
    have chars : ∀ b ∈ memory, b ≠ 0 := fun b mem zero => unended (zero ▸ mem)
    rw [cstrWhole chars] at outside
    exact strstrOverrun chars outside

theorem strstrFront {needle memory : Bytes} {pos : Nat} (here : strstr memory needle = .here pos) :
    ∀ b ∈ memory.take pos, b ≠ 0 := by
  have general (s : Bytes) (from_ pos : Nat) (h : strstrFrom needle from_ s = .here pos) :
      ∀ b ∈ s.take (pos - from_), b ≠ 0 := by
    induction s generalizing from_ with
    | nil => simp
    | cons c rest ih =>
      rw [strstrFrom] at h
      split at h
      · cases h
        simp
      · split at h
        · cases h
        · rename_i other
          have beyond := (strstrFromSound h).1
          obtain ⟨k,rfl⟩ : ∃ k, pos = from_ + 1 + k := ⟨pos - (from_ + 1),by omega⟩
          rw [show from_ + 1 + k - from_ = k + 1 by omega,List.take_succ_cons]
          have later := ih (from_ + 1) h
          rw [Nat.add_sub_cancel_left] at later
          exact List.forall_mem_cons.mpr ⟨other,later⟩
  have whole := general memory 0 pos here
  rwa [Nat.sub_zero] at whole

theorem strstrEarliest {memory needle : Bytes} {pos : Nat} (here : strstr memory needle = .here pos)
    (isNeedle : Needle needle) : ∀ i < pos, ¬ needle <+: memory.drop i := by
  rintro i below ⟨tail,rest⟩
  have split : memory = memory.take i ++ needle ++ tail := by
    rw [List.append_assoc,rest,List.take_append_drop]
  have chars : ∀ b ∈ memory.take i, b ≠ 0 := fun b mem =>
    strstrFront here b ((List.take_subset_take_left memory (Nat.le_of_lt below)) mem)
  obtain ⟨first,found,before⟩ := strstrSome split chars isNeedle
  rw [here] at found
  cases found
  exact absurd (Nat.le_trans before (List.length_take_le i memory)) (Nat.not_le_of_lt below)

end Search
