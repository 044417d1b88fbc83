import RfidStation.Lib.Cstr
import Mathlib.Data.List.Flatten

/-! Percent-encoding of bytes: which bytes stand for themselves is a parameter, and so are the
two digits written for a byte that does not. Decoding reads the digits in either letter case. -/
namespace Percent
open Cstr

def encode (keep : UInt8 → Bool) (digits : UInt8 → Bytes) (s : Bytes) : Bytes :=
  s.flatMap (fun c => if keep c then [c] else 37 :: digits c)

def decode : Bytes → Option Bytes
  | [] => some []
  | c :: rest => if c = 37 then match rest with
      | hi :: lo :: more => do
        let high ← digitValue 16 hi
        let low ← digitValue 16 lo
        let tail ← decode more
        some (UInt8.ofNat (high * 16 + low) :: tail)
      | _ => none
    else (decode rest).map (c :: ·)

def Digits (pair : Bytes) (c : UInt8) : Prop := ∃ hi lo high low, pair = [hi,lo] ∧
  digitValue 16 hi = some high ∧ digitValue 16 lo = some low ∧ high * 16 + low = c.toNat

variable {keep : UInt8 → Bool} {digits : UInt8 → Bytes}

theorem encodeCons (c : UInt8) (s : Bytes) : encode keep digits (c :: s) =
    (if keep c then [c] else 37 :: digits c) ++ encode keep digits s := List.flatMap_cons

theorem decodeDigits {pair : Bytes} {c : UInt8} (reads : Digits pair c) (rest : Bytes) :
    decode (37 :: pair ++ rest) = (decode rest).map (c :: ·) := by
  obtain ⟨hi,lo,high,low,rfl,readsHigh,readsLow,value⟩ := reads
  have same : UInt8.ofNat (high * 16 + low) = c := by rw [value,UInt8.ofNat_toNat]
  simp only [List.cons_append,List.nil_append,decode,if_true,readsHigh,readsLow,Option.bind_eq_bind,
    Option.bind_some,same]
  cases decode rest <;> rfl

theorem decodePlain {c : UInt8} (plain : c ≠ 37) (rest : Bytes) :
    decode (c :: rest) = (decode rest).map (c :: ·) := by
  rw [decode.eq_def]
  exact if_neg plain

theorem decodeWhole {s : Bytes} (plain : 37 ∉ s) : decode s = some s := by
  induction s with
  | nil => rfl
  | cons c rest ih =>
    obtain ⟨other,later⟩ := List.ne_and_not_mem_of_not_mem_cons plain
    rw [decodePlain (Ne.symm other),ih later,Option.map_some]

theorem decodeShort {s t : Bytes} (reads : decode s = some t) :
    t.length ≤ s.length ∧ (t.length = s.length → 37 ∉ s) := by
  fun_induction decode s generalizing t with
  | case1 => cases reads; exact ⟨Nat.le_refl 0,fun _ => List.not_mem_nil⟩
  | case2 hi lo more ih =>
    obtain ⟨high,-,reads⟩ := Option.bind_eq_some_iff.mp reads
    obtain ⟨low,-,reads⟩ := Option.bind_eq_some_iff.mp reads
    obtain ⟨tail,later,same⟩ := Option.bind_eq_some_iff.mp reads
    have short := (ih later).1
    cases Option.some.inj same
    simp only [List.length_cons]
    omega
  | case3 => contradiction
  | case4 c rest other ih =>
    obtain ⟨tail,later,rfl⟩ := Option.map_eq_some_iff.mp reads
    obtain ⟨short,plain⟩ := ih later
    refine ⟨Nat.succ_le_succ short,fun same mem => ?_⟩
    rcases List.mem_cons.mp mem with escape | inside
    · exact other escape.symm
    · exact plain (Nat.succ.inj same) inside

theorem decodeEncode (escaped : keep 37 = false) (reads : ∀ c, Digits (digits c) c) (s : Bytes) :
    decode (encode keep digits s) = some s := by
  induction s with
  | nil => rfl
  | cons c rest ih =>
    rw [encodeCons]
    split
    · rename_i kept
      have other : c ≠ 37 := by
        rintro rfl
        rw [escaped] at kept
        contradiction
      rw [List.singleton_append,decodePlain other,ih,Option.map_some]
    · rw [decodeDigits (reads c),ih,Option.map_some]

theorem encodeInjective (escaped : keep 37 = false) (reads : ∀ c, Digits (digits c) c) :
    Function.Injective (encode keep digits) := by
  intro s t same
  have back := congrArg decode same
  rw [decodeEncode escaped reads,decodeEncode escaped reads] at back
  exact Option.some.inj back

theorem encodeLength (two : ∀ c, (digits c).length = 2) (s : Bytes) :
    (encode keep digits s).length ≤ 3 * s.length := by
  induction s with
  | nil => exact Nat.le_refl 0
  | cons c rest ih =>
    rw [encodeCons,List.length_append,List.length_cons]
    split
    · rw [List.length_singleton]
      omega
    · rw [List.length_cons,two]
      omega

theorem encodeKept {s : Bytes} (kept : ∀ c ∈ s, keep c = true) : encode keep digits s = s := by
  induction s with
  | nil => rfl
  | cons c rest ih =>
    obtain ⟨first,later⟩ := List.forall_mem_cons.mp kept
    rw [encodeCons,if_pos first,ih later]
    rfl

theorem encodeMem {s : Bytes} {b : UInt8} (mem : b ∈ encode keep digits s) :
    keep b = true ∨ b = 37 ∨ ∃ c, b ∈ digits c := by
  obtain ⟨c,-,piece⟩ := List.mem_flatMap.mp mem
  split at piece
  · rename_i kept
    rw [List.mem_singleton.mp piece]
    exact .inl kept
  · rcases List.mem_cons.mp piece with escape | digit
    · exact .inr (.inl escape)
    · exact .inr (.inr ⟨c,digit⟩)

end Percent
