import RfidStation.Reload

/-! The two arrays of parse_config (config.c): where a character is appended, and the files on
which both arrays keep a NUL. -/
namespace RfidStation.ParserBounds
open Cstr Config ConfigFile Reload

def keyIndex (s : Parser) (c : UInt8) : Option Nat :=
  if isgraph c ∧ c ≠ 61 then some s.key.length else none

-- The index that strlen gives where a character is written to an array.
def appendIndex (s : Parser) (c : UInt8) : Option Nat := match s.label with
  | .beginline => if c = 59 ∨ c = 91 ∨ c = 10 then none else keyIndex s c
  | .comment => none
  | .readkey => keyIndex s c
  | .readvalue => if c ≠ 10 ∧ isgraph c ∧ c ≠ 34 then some s.value.length else none

def InBounds (s : Parser) (c : UInt8) : Prop := ∀ i, appendIndex s c = some i → i ≤ maxStrlen - 2

def Terminated (s : Parser) : Prop := s.key.length < maxStrlen ∧ s.value.length < maxStrlen

structure Bounded (conf : Conf) (file : Bytes) : Prop where
  terminates : (parseConfig conf file).isSome = true
  appends : Runs.Meets onChar InBounds (fresh conf) (cstr file)
  terminated : Runs.Always onChar Terminated (fresh conf) (cstr file)

def ShortItem : Item → Prop
  | .setting key value .. => (keyText key).length < maxStrlen ∧ (valueText value).length < maxStrlen
  | _ => True

def ShortRest : Rest → Prop
  | .keyPart text .. => (keyText text).length < maxStrlen
  | .valuePart key value .. => (keyText key).length < maxStrlen ∧ (valueText value).length < maxStrlen
  | _ => True

/-- What is kept of each key part and of each value is at most 99 characters, also where the file
breaks off. A key part goes on over empty lines and comments up to its `=`. -/
def Short (file : Bytes) : Prop := ∃ items rest, cstr file = joined items rest ∧
  (∀ item ∈ items, ShortItem item) ∧ ShortRest rest

theorem keyAppends {s t : Parser} {c : UInt8} (moved : readkey s c = some t) {i : Nat}
    (index : keyIndex s c = some i) : t.key.length = i + 1 := by
  obtain ⟨⟨graphic,other⟩,rfl⟩ := Runs.guarded index
  rw [readkey,if_pos graphic,if_neg other] at moved
  obtain ⟨key,put,rfl⟩ := Option.map_eq_some_iff.mp moved
  obtain ⟨-,rfl⟩ := Runs.guarded put
  exact List.length_append

theorem valueAppends {s t : Parser} {c : UInt8} (moved : readvalue s c = some t)
    (kept : c ≠ 10 ∧ isgraph c = true ∧ c ≠ 34) : t.value.length = s.value.length + 1 := by
  rw [readvalue,if_neg kept.1,if_pos kept.2] at moved
  obtain ⟨value,put,rfl⟩ := Option.map_eq_some_iff.mp moved
  obtain ⟨-,rfl⟩ := Runs.guarded put
  exact List.length_append

theorem terminatedInBounds (s : Parser) (c : UInt8) (t : Parser) (moved : onChar s c = some t)
    (terminated : Terminated t) : InBounds s c := by
  intro i index
  obtain ⟨key,value⟩ := terminated
  unfold maxStrlen at *
  unfold onChar at moved
  unfold appendIndex at index
  split at moved
  · rename_i here
    simp only [here] at index
    split at index
    · cases index
    · rename_i begins
      simp only [not_or] at begins
      rw [beginline,if_neg (not_or.mpr ⟨begins.1,begins.2.1⟩),if_neg begins.2.2] at moved
      have length := keyAppends moved index
      omega
  · rename_i here
    simp only [here] at index
    cases index
  · rename_i here
    simp only [here] at index
    have length := keyAppends moved index
    omega
  · rename_i here
    simp only [here] at index
    obtain ⟨kept,rfl⟩ := Runs.guarded index
    have length := valueAppends moved kept
    omega

theorem freshTerminated (conf : Conf) : Terminated (fresh conf) := ⟨Nat.zero_lt_succ 99,Nat.zero_lt_succ 99⟩

theorem filterPrefix {shows : UInt8 → Bool} (pre post : Bytes) :
    (pre.filter shows).length ≤ ((pre ++ post).filter shows).length := by
  rw [List.filter_append,List.length_append]
  exact Nat.le_add_right _ _

theorem keyAlways {text : Bytes} (conf : Conf) (inKey : 61 ∉ text) (short : (keyText text).length < maxStrlen) :
    Runs.Always onChar Terminated ⟨.readkey,[],[],conf⟩ text := by
  refine Runs.alwaysIff.mpr fun pre post t split run => ?_
  subst split
  rw [keyRun [] conf (fun mem => inKey (List.mem_append_left post mem)) emptyFits] at run
  obtain ⟨-,rfl⟩ := Runs.guarded run
  exact ⟨Nat.lt_of_le_of_lt (filterPrefix pre post) short,Nat.zero_lt_succ 99⟩

theorem valueAlways {text key : Bytes} (conf : Conf) (inValue : 10 ∉ text) (shortKey : key.length < maxStrlen)
    (short : (valueText text).length < maxStrlen) :
    Runs.Always onChar Terminated ⟨.readvalue,key,[],conf⟩ text := by
  refine Runs.alwaysIff.mpr fun pre post t split run => ?_
  subst split
  rw [valueRun key conf (fun mem => inValue (List.mem_append_left post mem)) emptyFits] at run
  obtain ⟨-,rfl⟩ := Runs.guarded run
  exact ⟨shortKey,Nat.lt_of_le_of_lt (filterPrefix pre post) short⟩

theorem assignAlways {key value : Bytes} (conf : Conf) (inKey : 61 ∉ key) (inValue : 10 ∉ value)
    (shortKey : (keyText key).length < maxStrlen) (shortValue : (valueText value).length < maxStrlen) :
    Runs.Always onChar Terminated ⟨.readkey,[],[],conf⟩ (key ++ 61 :: value) := by
  refine Runs.alwaysAppend.mpr ⟨keyAlways conf inKey shortKey,fun t run => ?_⟩
  rw [keyRun [] conf inKey emptyFits] at run
  obtain ⟨-,rfl⟩ := Runs.guarded run
  refine ⟨⟨shortKey,Nat.zero_lt_succ 99⟩,fun t moved => ?_⟩
  obtain rfl : (⟨.readvalue,keyText key,[],conf⟩ : Parser) = t := Option.some.inj moved
  exact valueAlways conf inValue shortKey shortValue

theorem beginAlways {text : Bytes} (conf : Conf) (notComment : ¬ IsComment text)
    (notNewline : text.head? ≠ some 10)
    (always : Runs.Always onChar Terminated ⟨.readkey,[],[],conf⟩ text) :
    Runs.Always onChar Terminated (fresh conf) text := by
  cases text with
  | nil => exact freshTerminated conf
  | cons c rest =>
    refine ⟨freshTerminated conf,fun t moved => always.2 t ?_⟩
    rwa [← beginChar conf notComment notNewline]

theorem commentAlways {text : Bytes} (conf : Conf) (isComment : IsComment text) (inComment : 10 ∉ text) :
    Runs.Always onChar Terminated (fresh conf) text := by
  refine Runs.alwaysIff.mpr fun pre post t split run => ?_
  subst split
  cases pre with
  | nil =>
    obtain rfl := Option.some.inj run
    exact freshTerminated conf
  | cons c rest =>
    have here : IsComment (c :: rest) := isComment
    rw [commentLineRun conf here (fun mem => inComment (List.mem_append_left post mem))] at run
    obtain rfl := Option.some.inj run
    exact freshTerminated conf

theorem keyPartBegins {key rest : Bytes} (begins : Begins key)
    (first : key = [] → ¬ IsComment rest ∧ rest.head? ≠ some 10) :
    ¬ IsComment (key ++ rest) ∧ (key ++ rest).head? ≠ some 10 := by
  cases key with
  | nil => exact first rfl
  | cons c key => exact ⟨begins.notComment,begins.notNewline⟩

theorem equalsBegins {key : Bytes} (begins : Begins key) (value : Bytes) :
    ¬ IsComment (key ++ 61 :: value) ∧ (key ++ 61 :: value).head? ≠ some 10 :=
  keyPartBegins begins (fun _ => ⟨by simp [IsComment],by simp⟩)

theorem itemBounded {item : Item} (conf : Conf) (short : ShortItem item) :
    Runs.exec onChar (fresh conf) item.bytes = some (fresh (assign conf item.made)) ∧
    Runs.Always onChar Terminated (fresh conf) item.bytes := by
  cases item with
  | newline => exact ⟨rfl,freshTerminated conf,fun t moved => Option.some.inj moved ▸ freshTerminated conf⟩
  | comment text isComment inComment =>
    have run := quietRun conf (.inr isComment) inComment
    refine ⟨run,Runs.alwaysAppend.mpr ⟨commentAlways conf isComment inComment,fun t before => ?_⟩⟩
    rw [commentLineRun conf isComment inComment] at before
    obtain rfl := Option.some.inj before
    exact ⟨freshTerminated conf,fun t moved => Option.some.inj moved ▸ freshTerminated conf⟩
  | setting key value begins inValue =>
    obtain ⟨shortKey,shortValue⟩ := short
    have run : Runs.exec onChar (fresh conf) (key ++ 61 :: value ++ [10]) =
        some (fresh (assign conf [(keyText key,valueText value)])) := by
      have equals : key = [] → ¬ IsComment (61 :: value ++ [10]) ∧ (61 :: value ++ [10]).head? ≠ some 10 :=
        fun _ => ⟨by simp [IsComment],by simp⟩
      rw [List.append_assoc,keyPartRun conf begins (by simp) equals,← List.append_assoc,
        settingRun key value conf begins.inKey inValue emptyFits,if_pos ⟨shortKey,shortValue⟩]
      rfl
    obtain ⟨notComment,notNewline⟩ := equalsBegins begins value
    have always := beginAlways conf notComment notNewline
      (assignAlways conf begins.inKey inValue shortKey shortValue)
    refine ⟨run,Runs.alwaysAppend.mpr ⟨always,fun t before => ?_⟩⟩
    have terminated := Runs.alwaysLast always before
    refine ⟨terminated,fun u moved => ?_⟩
    have whole := run
    rw [Runs.execAppend,before,Option.bind_some,Runs.exec,moved] at whole
    exact Option.some.inj whole ▸ freshTerminated _

theorem restBounded {rest : Rest} (conf : Conf) (short : ShortRest rest) :
    (∃ t, Runs.exec onChar (fresh conf) rest.bytes = some t) ∧
    Runs.Always onChar Terminated (fresh conf) rest.bytes := by
  cases rest with
  | nothing => exact ⟨⟨_,rfl⟩,freshTerminated conf⟩
  | commentPart text isComment inComment =>
    exact ⟨⟨_,commentLineRun conf isComment inComment⟩,commentAlways conf isComment inComment⟩
  | keyPart text some_char begins =>
    refine ⟨⟨⟨.readkey,keyText text,[],conf⟩,?_⟩,?_⟩
    · rw [Rest.bytes,beginKey conf some_char begins.notComment begins.notNewline,
        keyRun [] conf begins.inKey emptyFits]
      exact if_pos (Nat.le_of_lt short)
    · exact beginAlways conf begins.notComment begins.notNewline (keyAlways conf begins.inKey short)
  | valuePart key value begins inValue =>
    obtain ⟨shortKey,shortValue⟩ := short
    obtain ⟨notComment,notNewline⟩ := equalsBegins begins value
    refine ⟨⟨⟨.readvalue,keyText key,valueText value,conf⟩,?_⟩,?_⟩
    · rw [Rest.bytes,beginKey conf (by simp) notComment notNewline,
        assignRun key value conf begins.inKey inValue emptyFits]
      exact if_pos ⟨Nat.le_of_lt shortKey,Nat.le_of_lt shortValue⟩
    · exact beginAlways conf notComment notNewline
        (assignAlways conf begins.inKey inValue shortKey shortValue)

theorem joinedBounded {items : List Item} {rest : Rest} (conf : Conf)
    (short : ∀ item ∈ items, ShortItem item) (shortRest : ShortRest rest) :
    (∃ t, Runs.exec onChar (fresh conf) (joined items rest) = some t) ∧
    Runs.Always onChar Terminated (fresh conf) (joined items rest) := by
  induction items generalizing conf with
  | nil => exact restBounded conf shortRest
  | cons item items ih =>
    obtain ⟨first,later⟩ := List.forall_mem_cons.mp short
    obtain ⟨run,always⟩ := itemBounded conf first
    obtain ⟨⟨t,runs⟩,alwaysLater⟩ := ih (assign conf item.made) later
    rw [joinedCons]
    refine ⟨⟨t,?_⟩,Runs.alwaysAppend.mpr ⟨always,fun m before => ?_⟩⟩
    · rw [Runs.execAppend,run,Option.bind_some,runs]
    · obtain rfl := Option.some.inj (run.symm.trans before)
      exact alwaysLater

theorem assignShort {conf : Conf} {key value more : Bytes} {t : Parser} (begins : Begins key) (inValue : 10 ∉ value)
    (run : Runs.exec onChar (fresh conf) (key ++ 61 :: value ++ more) = some t)
    (always : Runs.Always onChar Terminated (fresh conf) (key ++ 61 :: value ++ more)) :
    (keyText key).length < maxStrlen ∧ (valueText value).length < maxStrlen := by
  obtain ⟨notComment,notNewline⟩ := equalsBegins begins value
  rw [Runs.execAppend] at run
  obtain ⟨m,before,-⟩ := Option.bind_eq_some_iff.mp run
  have terminated := Runs.alwaysIff.mp always _ more m rfl before
  rw [beginKey conf (by simp) notComment notNewline,assignRun key value conf begins.inKey inValue emptyFits] at before
  obtain ⟨-,rfl⟩ := Runs.guarded before
  exact terminated

theorem itemShort {conf : Conf} {item : Item} {t : Parser}
    (run : Runs.exec onChar (fresh conf) item.bytes = some t)
    (always : Runs.Always onChar Terminated (fresh conf) item.bytes) : ShortItem item := by
  cases item with
  | newline => trivial
  | comment => trivial
  | setting key value begins inValue => exact assignShort begins inValue run always

theorem restShort {conf : Conf} {rest : Rest} {t : Parser}
    (run : Runs.exec onChar (fresh conf) rest.bytes = some t)
    (always : Runs.Always onChar Terminated (fresh conf) rest.bytes) : ShortRest rest := by
  cases rest with
  | nothing => trivial
  | commentPart => trivial
  | keyPart text some_char begins =>
    have terminated := Runs.alwaysLast always run
    rw [Rest.bytes,beginKey conf some_char begins.notComment begins.notNewline,
      keyRun [] conf begins.inKey emptyFits] at run
    obtain ⟨-,rfl⟩ := Runs.guarded run
    exact terminated.1
  | valuePart key value begins inValue =>
    rw [Rest.bytes,← List.append_nil (key ++ 61 :: value)] at run always
    exact assignShort begins inValue run always

theorem joinedShort {conf : Conf} {items : List Item} {rest : Rest} {t : Parser}
    (run : Runs.exec onChar (fresh conf) (joined items rest) = some t)
    (always : Runs.Always onChar Terminated (fresh conf) (joined items rest)) :
    (∀ item ∈ items, ShortItem item) ∧ ShortRest rest := by
  induction items generalizing conf with
  | nil => exact ⟨nofun,restShort run always⟩
  | cons item items ih =>
    rw [joinedCons,Runs.execAppend] at run
    rw [joinedCons,Runs.alwaysAppend] at always
    obtain ⟨m,first,later⟩ := Option.bind_eq_some_iff.mp run
    have alwaysLater := always.2 m first
    have short := itemShort first always.1
    obtain rfl := itemRun first
    obtain ⟨shorts,shortRest⟩ := ih later alwaysLater
    exact ⟨List.forall_mem_cons.mpr ⟨short,shorts⟩,shortRest⟩

/-- The arrays are kept within their bounds exactly on the files without a long key or value. -/
theorem boundedIffShort (conf : Conf) (file : Bytes) : Bounded conf file ↔ Short file := by
  have ends : (parseConfig conf file).isSome = true ↔
      ∃ t, Runs.exec onChar (fresh conf) (cstr file) = some t := by
    rw [parseConfig,parseRun,Option.isSome_map,Option.isSome_iff_exists]
  constructor
  · intro bounded
    obtain ⟨items,rest,split⟩ := pieces (cstr file)
    obtain ⟨t,run⟩ := ends.mp bounded.terminates
    have always := bounded.terminated
    rw [split] at run always
    exact ⟨items,rest,split,joinedShort run always⟩
  · intro texts
    obtain ⟨items,rest,split,short,shortRest⟩ := texts
    obtain ⟨run,always⟩ := joinedBounded conf short shortRest
    rw [← split] at run always
    exact ⟨ends.mpr run,Runs.alwaysMeets terminatedInBounds always,always⟩

theorem longLineOverruns : ¬ ∀ conf file, Bounded conf file := by
  intro claim
  have bounded := claim [] (List.replicate 101 97)
  exact absurd bounded.terminates (by decide)

end RfidStation.ParserBounds
