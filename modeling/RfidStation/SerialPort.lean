import RfidStation.Lib.Cstr
import RfidStation.Lib.Lines
import RfidStation.Lib.Runs

/-! The loop of main (serial-port/main.c) that puts packets together between two 0xFF. `printed`
is history: what print_packet was called with. -/
namespace RfidStation.SerialPort
open Cstr

def bufLen : Nat := 8

abbrev Buf := {bytes : Bytes // bytes.length = bufLen}

structure State where
  count : Nat
  buf : Buf
  printed : List Bytes
  deriving DecidableEq, Repr

-- serialGetchar returns -1 when nothing has come for ten seconds.
def getchar : Option UInt8 → UInt8
  | some ch => ch
  | none => 0xFF

def Buf.put (buf : Buf) (i : Nat) (ch : UInt8) : Buf :=
  ⟨buf.val.set i ch,(List.length_set ..).trans buf.property⟩

def printPacket (s : State) : State := {s with printed := s.printed ++ [s.buf.val]}

-- `none`: a byte is stored behind buf.
def store (s : State) (ch : UInt8) : Option State :=
  if s.count < bufLen then some {s with count := s.count + 1, buf := Buf.put s.buf s.count ch} else none

def step (s : State) (read : Option UInt8) : Option State :=
  let ch := getchar read
  if ch = 0xFF then some {s with count := 0}
  else (store s ch).map (fun s => if s.count = bufLen then printPacket s else s)

-- The bytes that buf holds at first are whatever was there.
def initial (buf : Buf) : State := ⟨0,buf,[]⟩

def blocks (parts : List Bytes) : List Bytes :=
  (parts.filter (fun part => bufLen ≤ part.length)).map (fun part => part.take bufLen)

def parts (reads : List (Option UInt8)) : List Bytes := (reads.map getchar).splitOn 0xFF

def Assembles (buf : Buf) (reads : List (Option UInt8)) : Prop :=
  ∃ s, Runs.exec step (initial buf) reads = some s ∧ s.printed = blocks (parts reads)

/- `part` is what has come since the last delimiter, and `before` was printed earlier. -/
structure Holds (s : State) (before : List Bytes) (part : Bytes) : Prop where
  count : s.count = part.length
  inside : part.length ≤ bufLen
  stored : s.buf.val.take part.length = part
  printed : s.printed = before ++ blocks [part]

theorem blocksCons (part : Bytes) (more : List Bytes) : blocks (part :: more) = blocks [part] ++ blocks more := by
  rw [← List.singleton_append,blocks,List.filter_append,List.map_append]
  rfl

theorem blocksShort {part : Bytes} (short : part.length < bufLen) : blocks [part] = [] := by
  simp [blocks,Nat.not_le.mpr short]

theorem blocksFull {part : Bytes} (full : part.length = bufLen) : blocks [part] = [part] := by
  simp [blocks,← full]

section
variable {s t : State} {before : List Bytes} {part : Bytes} {read : Option UInt8}

theorem delimiterHolds (holds : Holds s before part) :
    Holds {s with count := 0} (before ++ blocks [part]) [] := by
  refine ⟨rfl,Nat.zero_le _,rfl,?_⟩
  have none : blocks [[]] = [] := rfl
  rw [none,List.append_nil]
  exact holds.printed

theorem byteHolds (holds : Holds s before part) (other : getchar read ≠ 0xFF) (room : part.length < bufLen) :
    ∃ t, step s read = some t ∧ Holds t before (part ++ [getchar read]) := by
  have length : (part ++ [getchar read]).length = part.length + 1 := by simp
  have stored : (s.buf.val.set part.length (getchar read)).take (part.length + 1) = part ++ [getchar read] := by
    have bound : part.length < s.buf.val.length := s.buf.property.symm ▸ room
    rw [List.take_add_one,List.take_set_of_le (Nat.le_refl _),holds.stored,List.getElem?_set_self bound]
    rfl
  have nothing := holds.printed
  rw [blocksShort room,List.append_nil] at nothing
  have put : store s (getchar read) = some
      {s with count := part.length + 1, buf := Buf.put s.buf part.length (getchar read)} := by
    rw [store,holds.count,if_pos room]
  have stepped : step s read = (store s (getchar read)).map
      (fun s => if s.count = bufLen then printPacket s else s) := if_neg other
  rw [stepped,put]
  by_cases full : part.length + 1 = bufLen
  · refine ⟨_,congrArg some (if_pos full),length.symm,Nat.le_of_eq (length.trans full),?_,?_⟩
    · rw [length]
      exact stored
    · rw [blocksFull (length.trans full)]
      rw [full] at stored
      have all := List.take_of_length_le (Nat.le_of_eq (Buf.put s.buf part.length (getchar read)).property)
      have whole : (Buf.put s.buf part.length (getchar read)).val = part ++ [getchar read] :=
        all.symm.trans stored
      simp only [printPacket,whole,nothing]
  · refine ⟨_,congrArg some (if_neg full),length.symm,?_,?_,?_⟩
    · rw [length]
      exact room
    · rw [length]
      exact stored
    · rw [blocksShort (by omega),List.append_nil]
      exact nothing

theorem byteBehind (holds : Holds s before part) (other : getchar read ≠ 0xFF) (full : ¬ part.length < bufLen) :
    step s read = none := by
  have stepped : step s read = (store s (getchar read)).map
      (fun s => if s.count = bufLen then printPacket s else s) := if_neg other
  rw [stepped,store,holds.count,if_neg full]
  rfl

theorem delimiterStep (same : getchar read = 0xFF) : step s read = some {s with count := 0} := if_pos same

theorem runHolds (reads : List (Option UInt8)) (holds : Holds s before part) :
    let rest := Lines.continued 0xFF part (reads.map getchar)
    ((∀ p ∈ rest, p.length ≤ bufLen) →
      ∃ t, Runs.exec step s reads = some t ∧ t.printed = before ++ blocks rest) ∧
    ((∃ t, Runs.exec step s reads = some t) → ∀ p ∈ rest, p.length ≤ bufLen) := by
  induction reads generalizing s before part with
  | nil =>
    simp only [List.map_nil,Lines.continuedNil,List.forall_mem_singleton]
    exact ⟨fun _ => ⟨s,rfl,holds.printed⟩,fun _ => holds.inside⟩
  | cons read reads ih =>
    rw [List.map_cons,Runs.exec]
    by_cases same : getchar read = 0xFF
    · rw [same,Lines.continuedSep,delimiterStep same,Option.bind_some]
      obtain ⟨whole,back⟩ := ih (delimiterHolds holds)
      refine ⟨fun all => ?_,fun done => List.forall_mem_cons.mpr ⟨holds.inside,back done⟩⟩
      obtain ⟨t,run,printed⟩ := whole (List.forall_mem_cons.mp all).2
      refine ⟨t,run,?_⟩
      rw [printed,List.append_assoc]
      exact congrArg (before ++ ·) (blocksCons part _).symm
    · rw [Lines.continuedOther same]
      by_cases room : part.length < bufLen
      · obtain ⟨t,stepped,holds'⟩ := byteHolds holds same room
        rw [stepped,Option.bind_some]
        exact ih holds'
      · rw [byteBehind holds same room,Option.bind_none]
        constructor
        · intro all
          -- the part in buf goes on in the stream
          obtain ⟨first,more,shape⟩ :=
            List.exists_cons_of_ne_nil (List.splitOn_ne_nil 0xFF (reads.map getchar))
          have longer := all (part ++ [getchar read] ++ first) (by simp [Lines.continued,shape])
          simp only [List.length_append,List.length_singleton] at longer
          omega
        · intro done
          obtain ⟨t,run⟩ := done
          cases run

end

/-- The packets come out of the stream, and buf is never left, exactly if no delimiter is more
than eight bytes behind the last one. -/
theorem assemblesIffShort (buf : Buf) (reads : List (Option UInt8)) :
    Assembles buf reads ↔ ∀ part ∈ parts reads, part.length ≤ bufLen := by
  have start : Holds (initial buf) [] [] := ⟨rfl,Nat.zero_le _,rfl,rfl⟩
  obtain ⟨whole,back⟩ := runHolds reads start
  rw [Lines.continuedEmpty] at whole back
  refine ⟨fun ⟨s,run,_⟩ => back ⟨s,run⟩,fun all => ?_⟩
  obtain ⟨s,run,printed⟩ := whole all
  exact ⟨s,run,printed⟩

theorem nineBytesBehindBuf : ¬ ∀ (buf : Buf) (reads : List (Option UInt8)), Assembles buf reads := by
  intro claim
  obtain ⟨s,run,-⟩ := claim ⟨List.replicate bufLen 0,rfl⟩ (List.replicate 9 (some 1))
  have behind : Runs.exec step (initial ⟨List.replicate bufLen 0,rfl⟩) (List.replicate 9 (some 1)) = none := by
    decide
  cases behind.symm.trans run

end RfidStation.SerialPort
