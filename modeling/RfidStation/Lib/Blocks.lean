import Mathlib.Data.List.Basic

/-! Streams made of blocks of one width: lengths, prefixes and suffixes at block borders. -/
namespace Blocks
variable {ρ β : Type} {enc : ρ → List β} {width : Nat}

theorem blocksLength (wide : ∀ r, (enc r).length = width) (rs : List ρ) :
    (rs.flatMap enc).length = width * rs.length := by
  induction rs with
  | nil => rfl
  | cons r rest ih =>
    rw [List.flatMap_cons,List.length_append,wide r,ih,List.length_cons,Nat.mul_succ,Nat.add_comm]

theorem blocksTake (wide : ∀ r, (enc r).length = width) (n : Nat) (rs : List ρ) :
    (rs.flatMap enc).take (width * n) = (rs.take n).flatMap enc := by
  induction n generalizing rs with
  | zero => simp
  | succ n ih =>
    cases rs with
    | nil => simp
    | cons r rest =>
      rw [List.flatMap_cons,List.take_append,List.take_succ_cons,List.flatMap_cons,wide r,
        List.take_of_length_le (by rw [wide r,Nat.mul_succ]; omega),
        Nat.mul_succ,Nat.add_sub_cancel,ih]

theorem blocksDrop (wide : ∀ r, (enc r).length = width) (n : Nat) (rs : List ρ) :
    (rs.flatMap enc).drop (width * n) = (rs.drop n).flatMap enc := by
  have parts := congrArg (List.flatMap enc) (List.take_append_drop n rs)
  rw [List.flatMap_append,← blocksTake wide] at parts
  exact List.append_cancel_left (List.take_append_drop _ _ |>.trans parts.symm)

def blocks (width : Nat) (s : List β) : List (List β) :=
  (List.range (s.length / width)).map (fun i => (s.drop (width * i)).take width)

theorem blocksWide {s block : List β} (mem : block ∈ blocks width s) : block.length = width := by
  obtain ⟨i,inside,rfl⟩ := List.mem_map.mp mem
  have below : i + 1 ≤ s.length / width := List.mem_range.mp inside
  have enough : width * (i + 1) ≤ s.length :=
    Nat.le_trans (Nat.mul_le_mul_left width below) (Nat.mul_div_le s.length width)
  rw [Nat.mul_add_one] at enough
  rw [List.length_take,List.length_drop]
  omega

theorem blocksShort {s : List β} (short : s.length < width) : blocks width s = [] := by
  rw [blocks,Nat.div_eq_of_lt short]; rfl

theorem blocksAppend {s : List β} (pos : 0 < width) (whole : width ∣ s.length) (t : List β) :
    blocks width (s ++ t) = blocks width s ++ blocks width t := by
  obtain ⟨n,count⟩ := whole
  have total : (s ++ t).length / width = n + t.length / width := by
    rw [List.length_append,count,Nat.mul_add_div pos]
  rw [blocks,blocks,blocks,total,count,Nat.mul_div_cancel_left _ pos,List.range_add,List.map_append,
    List.map_map]
  refine congrArg₂ (· ++ ·) (List.map_congr_left ?_) (List.map_congr_left ?_)
  · intro i mem
    have inside : width * i + width ≤ s.length := by
      rw [count,← Nat.mul_succ]
      exact Nat.mul_le_mul_left _ (List.mem_range.mp mem)
    rw [List.drop_append_of_le_length (by omega),
      List.take_append_of_le_length (by rw [List.length_drop]; omega)]
  · intro i _
    have past : s.length + width * i = width * (n + i) := by rw [count,Nat.mul_add]
    rw [Function.comp_apply,← past,List.drop_append,List.drop_eq_nil_of_le (Nat.le_add_right _ _),
      List.nil_append,Nat.add_sub_cancel_left]

theorem blocksOne {s : List β} (pos : 0 < width) (one : s.length = width) : blocks width s = [s] := by
  rw [blocks,one,Nat.div_self pos]
  simp [← one]

theorem blocksCons {s : List β} (pos : 0 < width) (enough : width ≤ s.length) :
    blocks width s = s.take width :: blocks width (s.drop width) := by
  have one : (s.take width).length = width := by rw [List.length_take]; omega
  have parts := blocksAppend pos ⟨1,by rw [one,Nat.mul_one]⟩ (s.drop width)
  rw [List.take_append_drop,blocksOne pos one] at parts
  exact parts

theorem blocksFlatMap (pos : 0 < width) {f : ρ → List β} {rs : List ρ}
    (whole : ∀ r ∈ rs, width ∣ (f r).length) :
    blocks width (rs.flatMap f) = rs.flatMap (fun r => blocks width (f r)) := by
  induction rs with
  | nil => exact blocksShort pos
  | cons r rest ih =>
    rw [List.flatMap_cons,List.flatMap_cons,blocksAppend pos (whole r List.mem_cons_self),
      ih (fun q mem => whole q (List.mem_cons_of_mem _ mem))]

theorem flatMapWhole {f : ρ → List β} {rs : List ρ} (whole : ∀ r ∈ rs, width ∣ (f r).length) :
    width ∣ (rs.flatMap f).length := by
  induction rs with
  | nil => exact Nat.dvd_zero _
  | cons r rest ih =>
    rw [List.flatMap_cons,List.length_append]
    exact Nat.dvd_add (whole r List.mem_cons_self)
      (ih (fun q mem => whole q (List.mem_cons_of_mem _ mem)))

theorem blocksFlatten (pos : 0 < width) {frames : List (List β)}
    (wide : ∀ f ∈ frames, f.length = width) : blocks width frames.flatten = frames := by
  have parts := blocksFlatMap (f := id) pos (fun f mem => ⟨1,by rw [id,wide f mem,Nat.mul_one]⟩)
  rw [List.flatMap_id] at parts
  rw [parts]
  refine (List.flatMap_congr (fun f mem => blocksOne pos (wide f mem))).trans ?_
  exact List.flatMap_singleton' frames

end Blocks
