import RfidStation.Lib.Cstr
import Mathlib.Data.List.Basic

/-! Hexadecimal digits of common.c, and the student id that handle_packet prints. -/
namespace RfidStation.Hex
open Cstr

def tohexchar (n : Nat) : UInt8 :=
  if n < 10 then 48 + UInt8.ofNat n else 97 + UInt8.ofNat n - 10

def hex2int (c : UInt8) : Int :=
  if 97 ≤ c ∧ c ≤ 102 then c.toNat - 97 + 10
  else if 65 ≤ c ∧ c ≤ 70 then c.toNat - 65 + 10
  else if 48 ≤ c ∧ c ≤ 57 then c.toNat - 48
  else -1

def hexByte (b : UInt8) : Bytes := [tohexchar (b.toNat >>> 4),tohexchar (b.toNat &&& 15)]

def sprintBuf (buf : Bytes) : Bytes := buf.flatMap hexByte

theorem hexDigitReads : ∀ n < 16, hex2int (tohexchar n) = n := by decide

theorem hexByteReads (b : UInt8) : ∃ hi lo, hexByte b = [hi,lo] ∧
    (0 ≤ hex2int hi ∧ 0 ≤ hex2int lo) ∧ hex2int hi * 16 + hex2int lo = b.toNat := by
  have byte := b.toNat_lt
  have low : b.toNat &&& 15 = b.toNat % 16 := Nat.and_two_pow_sub_one_eq_mod b.toNat 4
  have high : b.toNat >>> 4 = b.toNat / 16 := Nat.shiftRight_eq_div_pow b.toNat 4
  refine ⟨_,_,rfl,?_⟩
  rw [low,high,hexDigitReads _ (by omega),hexDigitReads _ (by omega)]
  constructor <;> omega

theorem hexByteInjective {a b : UInt8} (h : hexByte a = hexByte b) : a = b := by
  obtain ⟨hi,lo,pa,_,va⟩ := hexByteReads a
  obtain ⟨hi',lo',pb,_,vb⟩ := hexByteReads b
  rw [pa,pb] at h
  obtain ⟨rfl,rfl⟩ : hi = hi' ∧ lo = lo' := by simpa using h
  exact UInt8.toNat_inj.mp (by omega)

theorem sprintBufLength (buf : Bytes) : (sprintBuf buf).length = 2 * buf.length := by
  induction buf with
  | nil => rfl
  | cons b rest ih =>
    simp only [sprintBuf,List.flatMap_cons,List.length_append] at *
    simp only [ih,hexByte,List.length_cons,List.length_nil]
    omega

theorem hexDigitNonzero : ∀ n < 16, tohexchar n ≠ 0 := by decide

theorem sprintBufNonzero (buf : Bytes) : ∀ c ∈ sprintBuf buf, c ≠ 0 := by
  intro c mem
  obtain ⟨b,_,digit⟩ := List.mem_flatMap.mp mem
  have byte := b.toNat_lt
  have low : b.toNat &&& 15 < 16 := Nat.lt_of_le_of_lt Nat.and_le_right (by decide)
  have high : b.toNat >>> 4 < 16 := by rw [Nat.shiftRight_eq_div_pow]; omega
  simp only [hexByte,List.mem_cons,List.not_mem_nil,or_false] at digit
  rcases digit with rfl | rfl
  · exact hexDigitNonzero _ high
  · exact hexDigitNonzero _ low

theorem sprintBufInjective {a b : Bytes} (h : sprintBuf a = sprintBuf b) : a = b := by
  induction a generalizing b with
  | nil => cases b with
    | nil => rfl
    | cons y ys => simp [sprintBuf,hexByte] at h
  | cons x xs ih => cases b with
    | nil => simp [sprintBuf,hexByte] at h
    | cons y ys =>
      simp only [sprintBuf,List.flatMap_cons] at h
      obtain ⟨head,tail⟩ := List.append_inj h (by simp [hexByte])
      rw [hexByteInjective head,ih tail]

end RfidStation.Hex
