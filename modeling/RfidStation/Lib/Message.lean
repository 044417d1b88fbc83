import RfidStation.Lib.Cstr
import Mathlib.Data.List.Infix

/-! A message of header lines, each ended by CR LF, an empty line, and a body whose length one
of the headers announces: how it is read off a stream, and what is read off a part of it. -/
namespace Message
open Cstr

def head (lines : List Bytes) : Bytes := lines.flatMap (fun line => line ++ [13,10])

def written (lines : List Bytes) (body : Bytes) : Bytes := head lines ++ [13,10] ++ body

def readLine : Bytes → Option (Bytes × Bytes)
  | [] => none
  | b :: rest => if [13,10] <+: b :: rest then some ([],rest.tail)
    else (readLine rest).map (fun read => (b :: read.1,read.2))

def readHead : Nat → Bytes → Option (List Bytes × Bytes)
  | 0, _ => none
  | n + 1, s => do
    let (line,rest) ← readLine s
    if line = [] then some ([],rest) else do
      let (lines,body) ← readHead n rest
      some (line :: lines,body)

def header (name : Bytes) (lines : List Bytes) : Option Bytes :=
  (lines.find? (name.isPrefixOf ·)).map (List.drop name.length)

def decimal (text : Bytes) : Nat := digits 10 0 text

def contentLength : Bytes := ascii "Content-Length: "

def receive (s : Bytes) : Option (List Bytes × Bytes) := do
  let (lines,rest) ← readHead s.length s
  let length ← header contentLength lines
  if decimal length ≤ rest.length then some (lines,rest.take (decimal length)) else none

def Line (line : Bytes) : Prop := line ≠ [] ∧ 13 ∉ line

theorem digitRead {n : Nat} (small : n < 10) :
    digitValue 10 (UInt8.ofNat n.digitChar.toNat) = some n := by
  revert n
  decide

theorem digitsAppend (base acc : Nat) {a : Bytes} (read : ∀ b ∈ a, (digitValue base b).isSome) (rest : Bytes) :
    digits base acc (a ++ rest) = digits base (digits base acc a) rest := by
  induction a generalizing acc with
  | nil => rfl
  | cons b a ih =>
    obtain ⟨first,later⟩ := List.forall_mem_cons.mp read
    obtain ⟨d,value⟩ := Option.isSome_iff_exists.mp first
    rw [List.cons_append,digits,digits,value]
    exact ih (acc * base + d) later

theorem decimalDigits (n : Nat) : (∀ b ∈ ascii (toString n), (digitValue 10 b).isSome) ∧
    decimal (ascii (toString n)) = n := by
  have texts : ascii (toString n) = (Nat.toDigits 10 n).map (fun c => UInt8.ofNat c.toNat) := by
    rw [ascii]
    exact congrArg (List.map _) (Nat.toList_repr)
  rw [texts]
  clear texts
  induction n using Nat.base_induction 10 (by decide) with
  | single m small =>
    rw [Nat.toDigits_of_lt_base small]
    simp [decimal,digits,digitRead small]
  | digit m k small pos ih =>
    obtain ⟨read,value⟩ := ih
    rw [← Nat.toDigits_append_toDigits (by decide) pos small,Nat.toDigits_of_lt_base small,List.map_append]
    refine ⟨fun b mem => ?_,?_⟩
    · rcases List.mem_append.mp mem with front | last
      · exact read b front
      · rw [List.mem_singleton.mp last,digitRead small]
        rfl
    · rw [decimal] at value ⊢
      rw [digitsAppend 10 0 read,value]
      simp [digits,digitRead small,Nat.mul_comm]

theorem readLineReads {line : Bytes} (inLine : 13 ∉ line) (rest : Bytes) :
    readLine (line ++ [13,10] ++ rest) = some (line,rest) := by
  induction line with
  | nil => exact if_pos (List.prefix_append [13,10] rest)
  | cons b line ih =>
    obtain ⟨other,later⟩ := List.ne_and_not_mem_of_not_mem_cons inLine
    rw [List.cons_append,List.cons_append,readLine,
      if_neg (fun starts => other (List.cons_prefix_cons.mp starts).1),ih later]
    rfl

theorem readLineCut {line part : Bytes} (inLine : 13 ∉ line) (isPart : part <+: line ++ [13,10])
    (short : part.length < line.length + 2) : readLine part = none := by
  induction line generalizing part with
  | nil =>
    obtain ⟨rest,same⟩ := isPart
    rcases part with - | ⟨b,- | ⟨c,more⟩⟩
    · rfl
    · rw [(List.cons.inj same).1]; rfl
    · exact absurd short (by simp only [List.length_cons,List.length_nil]; omega)
  | cons b line ih =>
    obtain ⟨other,later⟩ := List.ne_and_not_mem_of_not_mem_cons inLine
    cases part with
    | nil => rfl
    | cons c part =>
      obtain ⟨rfl,tail⟩ := List.cons_prefix_cons.mp isPart
      rw [readLine,if_neg (fun starts => other (List.cons_prefix_cons.mp starts).1),
        ih later tail (by simpa using short)]
      rfl

theorem headCons (line : Bytes) (lines : List Bytes) (rest : Bytes) :
    head (line :: lines) ++ [13,10] ++ rest = line ++ [13,10] ++ (head lines ++ [13,10] ++ rest) := by
  simp [head,List.flatMap_cons]

theorem readHeadEmpty {s rest : Bytes} (empty : readLine s = some ([],rest)) (n : Nat) :
    readHead (n + 1) s = some ([],rest) := by
  simp [readHead,empty]

theorem readHeadLine {s line rest : Bytes} (read : readLine s = some (line,rest)) (some_char : line ≠ [])
    (n : Nat) : readHead (n + 1) s = (readHead n rest).map (fun later => (line :: later.1,later.2)) := by
  simp only [readHead,read,Option.bind_eq_bind,Option.bind_some,if_neg some_char]
  cases readHead n rest <;> rfl

theorem readHeadReads {lines : List Bytes} (plain : ∀ line ∈ lines, Line line) (body : Bytes)
    {fuel : Nat} (enough : lines.length < fuel) :
    readHead fuel (head lines ++ [13,10] ++ body) = some (lines,body) := by
  obtain ⟨n,rfl⟩ : ∃ n, fuel = n + 1 := ⟨fuel - 1,by omega⟩
  induction lines generalizing n with
  | nil => exact readHeadEmpty (readLineReads List.not_mem_nil body) n
  | cons line lines ih =>
    obtain ⟨⟨some_char,inLine⟩,later⟩ := List.forall_mem_cons.mp plain
    obtain ⟨m,rfl⟩ : ∃ m, n = m + 1 := ⟨n - 1,by rw [List.length_cons] at enough; omega⟩
    rw [headCons,readHeadLine (readLineReads inLine _) some_char,ih later m (Nat.lt_of_succ_lt_succ enough)]
    rfl

theorem readHeadNone {s : Bytes} (none : readLine s = none) (fuel : Nat) : readHead fuel s = .none := by
  cases fuel with
  | zero => rfl
  | succ n => rw [readHead,none]; rfl

theorem readHeadCut {lines : List Bytes} (plain : ∀ line ∈ lines, Line line) {part : Bytes} (fuel : Nat)
    (isPart : part <+: head lines ++ [13,10]) (short : part.length < (head lines ++ [13,10]).length) :
    readHead fuel part = none := by
  induction lines generalizing part fuel with
  | nil => exact readHeadNone (readLineCut List.not_mem_nil isPart (by simpa [head] using short)) fuel
  | cons line lines ih =>
    obtain ⟨⟨some_char,inLine⟩,later⟩ := List.forall_mem_cons.mp plain
    have split := headCons line lines []
    rw [List.append_nil,List.append_nil] at split
    rw [split] at isPart short
    have ended : (line ++ [13,10]).length = line.length + 2 := List.length_append
    by_cases cut : part.length < line.length + 2
    · have inside := List.prefix_of_prefix_length_le isPart (List.prefix_append _ _)
        (Nat.le_of_lt (ended ▸ cut))
      exact readHeadNone (readLineCut inLine inside cut) fuel
    · obtain ⟨more,rfl⟩ := List.prefix_of_prefix_length_le (List.prefix_append _ _) isPart
        (ended ▸ Nat.le_of_not_lt cut)
      have tail := (List.prefix_append_right_inj _).mp isPart
      rw [List.length_append,@List.length_append _ (line ++ [13,10])] at short
      cases fuel with
      | zero => rfl
      | succ n =>
        rw [readHeadLine (readLineReads inLine more) some_char,ih later n tail (by omega)]
        rfl

theorem headLength (lines : List Bytes) : 2 * lines.length ≤ (head lines).length := by
  induction lines with
  | nil => exact Nat.zero_le _
  | cons line lines ih =>
    simp only [head,List.flatMap_cons,List.length_append,List.length_cons,List.length_nil] at ih ⊢
    omega

variable {lines : List Bytes} {body : Bytes}

theorem receiveReads (plain : ∀ line ∈ lines, Line line)
    (announced : header contentLength lines = some (ascii (toString body.length))) :
    receive (written lines body) = some (lines,body) := by
  have enough : lines.length < (written lines body).length := by
    have each := headLength lines
    simp only [written,List.length_append,List.length_cons]
    omega
  have read : readHead (written lines body).length (written lines body) = some (lines,body) :=
    readHeadReads plain body enough
  simp only [receive,read,Option.bind_eq_bind,Option.bind_some,announced,(decimalDigits body.length).2,
    if_pos (Nat.le_refl body.length),List.take_length]

theorem receiveCut (plain : ∀ line ∈ lines, Line line)
    (announced : header contentLength lines = some (ascii (toString body.length))) {part : Bytes}
    (isPart : part <+: written lines body) (cut : part ≠ written lines body) : receive part = none := by
  have short : part.length < (written lines body).length :=
    Nat.lt_of_le_of_ne isPart.length_le (fun same => cut (isPart.eq_of_length same))
  by_cases inHead : part.length < (head lines ++ [13,10]).length
  · have inside := List.prefix_of_prefix_length_le isPart (List.prefix_append _ _) (Nat.le_of_lt inHead)
    rw [receive,readHeadCut plain _ inside inHead]
    rfl
  · obtain ⟨got,rfl⟩ := List.prefix_of_prefix_length_le (List.prefix_append _ _) isPart
      (Nat.le_of_not_lt inHead)
    have less : got.length < body.length := by
      simp only [written,List.length_append] at short
      omega
    have each := headLength lines
    have enough : lines.length < (head lines ++ [13,10] ++ got).length := by
      simp only [List.length_append,List.length_cons]
      omega
    have read := readHeadReads plain got enough
    simp only [receive,read,Option.bind_eq_bind,Option.bind_some,announced,(decimalDigits body.length).2,
      if_neg (Nat.not_le_of_lt less)]

end Message
