import RfidStation.Settings

/-! What a configuration file is to the parser, line ends aside: complete pieces, and at the
end perhaps the beginning of one. A failed reload has assigned what the complete ones assign. -/
namespace RfidStation.Reload
open Cstr Config ConfigFile Settings

/- The text from a line's first character on that is read as a key. -/
structure Begins (key : Bytes) : Prop where
  notComment : ¬ IsComment key
  notNewline : key.head? ≠ some 10
  inKey : 61 ∉ key

inductive Item where
  | newline
  | comment (text : Bytes) (isComment : IsComment text) (inComment : 10 ∉ text)
  | setting (key value : Bytes) (begins : Begins key) (inValue : 10 ∉ value)

def Item.bytes : Item → Bytes
  | .newline => [10]
  | .comment text .. => text ++ [10]
  | .setting key value .. => key ++ 61 :: value ++ [10]

def Item.made : Item → List (Bytes × Bytes)
  | .setting key value .. => [(keyText key,valueText value)]
  | _ => []

inductive Rest where
  | nothing
  | commentPart (text : Bytes) (isComment : IsComment text) (inComment : 10 ∉ text)
  | keyPart (text : Bytes) (some_char : text ≠ []) (begins : Begins text)
  | valuePart (key value : Bytes) (begins : Begins key) (inValue : 10 ∉ value)

def Rest.bytes : Rest → Bytes
  | .nothing => []
  | .commentPart text .. => text
  | .keyPart text .. => text
  | .valuePart key value .. => key ++ 61 :: value

def joined (items : List Item) (rest : Rest) : Bytes := items.flatMap Item.bytes ++ rest.bytes

theorem joinedCons (item : Item) (items : List Item) (rest : Rest) :
    joined (item :: items) rest = item.bytes ++ joined items rest := by
  rw [joined,joined,List.flatMap_cons,List.append_assoc]

theorem commentBefore {text : Bytes} (isComment : IsComment text) :
    IsComment (Lines.before 10 text) :=
  isComment.imp (Lines.beforeHead (by decide)).mpr (Lines.beforeHead (by decide)).mpr

theorem keyBegins {text : Bytes} (notComment : ¬ IsComment text) (notNewline : text.head? ≠ some 10) :
    Begins (Lines.before 61 text) :=
  ⟨fun isComment => notComment (isComment.imp (Lines.beforeHead (by decide)).mp
      (Lines.beforeHead (by decide)).mp),
    fun head => notNewline ((Lines.beforeHead (by decide)).mp head),Lines.beforeWithout⟩

theorem firstPiece (text : Bytes) : (∃ rest : Rest, text = rest.bytes) ∨
    ∃ (item : Item) (more : Bytes), text = item.bytes ++ more := by
  by_cases nothing : text = []
  · exact .inl ⟨.nothing,nothing⟩
  by_cases isComment : IsComment text
  · by_cases ended : 10 ∈ text
    · refine .inr ⟨.comment _ (commentBefore isComment) Lines.beforeWithout,Lines.after 10 text,?_⟩
      rw [Item.bytes,List.append_assoc,List.singleton_append,Lines.atFirst ended]
    · exact .inl ⟨.commentPart text isComment ended,rfl⟩
  by_cases newline : text.head? = some 10
  · obtain ⟨more,rfl⟩ := List.head?_eq_some_iff.mp newline
    exact .inr ⟨.newline,more,rfl⟩
  have begins := keyBegins isComment newline
  by_cases assigns : 61 ∈ text
  · have parts := Lines.atFirst assigns
    by_cases ended : 10 ∈ Lines.after 61 text
    · have inValue : 10 ∉ Lines.before 10 (Lines.after 61 text) := Lines.beforeWithout
      refine .inr ⟨.setting _ _ begins inValue,Lines.after 10 (Lines.after 61 text),?_⟩
      rw [← Lines.atFirst ended] at parts
      rw [Item.bytes]
      simpa using parts.symm
    · exact .inl ⟨.valuePart _ _ begins ended,parts.symm⟩
  · rw [Lines.beforeWhole assigns] at begins
    exact .inl ⟨.keyPart text nothing begins,rfl⟩

theorem itemPositive (item : Item) : 0 < item.bytes.length := by
  have ended (text : Bytes) : 0 < (text ++ [10]).length := by simp
  cases item with
  | newline => exact Nat.one_pos
  | comment text => exact ended text
  | setting key value => exact ended (key ++ 61 :: value)

theorem pieces (text : Bytes) : ∃ items rest, text = joined items rest := by
  induction size : text.length using Nat.strong_induction_on generalizing text with
  | _ n ih =>
    obtain ⟨rest,rfl⟩ | ⟨item,more,rfl⟩ := firstPiece text
    · exact ⟨[],rest,rfl⟩
    · rw [List.length_append] at size
      have positive := itemPositive item
      obtain ⟨items,rest,rfl⟩ := ih more.length (by omega) more rfl
      exact ⟨item :: items,rest,(joinedCons item items rest).symm⟩

theorem keyPartRun {key rest : Bytes} (conf : Conf) (begins : Begins key) (some_char : key ++ rest ≠ [])
    (first : key = [] → ¬ IsComment rest ∧ rest.head? ≠ some 10) :
    Runs.exec onChar (fresh conf) (key ++ rest) =
      Runs.exec onChar ⟨.readkey,[],[],conf⟩ (key ++ rest) := by
  cases key with
  | nil => exact beginKey conf some_char (first rfl).1 (first rfl).2
  | cons c key => exact beginKey conf some_char begins.notComment begins.notNewline

theorem itemRun {conf : Conf} {item : Item} {t : Parser}
    (run : Runs.exec onChar (fresh conf) item.bytes = some t) : t = fresh (assign conf item.made) := by
  cases item with
  | newline => exact (Option.some.inj run).symm
  | comment text isComment inComment =>
    rw [Item.bytes,quietRun conf (.inr isComment) inComment] at run
    exact (Option.some.inj run).symm
  | setting key value begins inValue =>
    have equals : key = [] → ¬ IsComment (61 :: value ++ [10]) ∧ (61 :: value ++ [10]).head? ≠ some 10 :=
      fun _ => ⟨by simp [IsComment],by simp⟩
    rw [Item.bytes,List.append_assoc,keyPartRun conf begins (by simp) equals,← List.append_assoc,
      settingRun key value conf begins.inKey inValue emptyFits] at run
    exact (Runs.guarded run).2

theorem restRun {conf : Conf} {rest : Rest} {t : Parser}
    (run : Runs.exec onChar (fresh conf) rest.bytes = some t) :
    t.conf = conf ∧ (t.label = .beginline ↔ rest = .nothing) := by
  cases rest with
  | nothing =>
    obtain rfl := Option.some.inj run
    exact ⟨rfl,iff_of_true rfl rfl⟩
  | commentPart text isComment inComment =>
    rw [Rest.bytes,commentLineRun conf isComment inComment] at run
    obtain rfl := Option.some.inj run
    exact ⟨rfl,by simp⟩
  | keyPart text some_char begins =>
    rw [Rest.bytes,beginKey conf some_char begins.notComment begins.notNewline,
      keyRun [] conf begins.inKey emptyFits] at run
    obtain ⟨-,rfl⟩ := Runs.guarded run
    exact ⟨rfl,by simp⟩
  | valuePart key value begins inValue =>
    have equals : key = [] → ¬ IsComment (61 :: value) ∧ (61 :: value).head? ≠ some 10 :=
      fun _ => ⟨by simp [IsComment],by simp⟩
    rw [Rest.bytes,keyPartRun conf begins (by simp) equals,
      assignRun key value conf begins.inKey inValue emptyFits] at run
    obtain ⟨-,rfl⟩ := Runs.guarded run
    exact ⟨rfl,by simp⟩

def made (items : List Item) : List (Bytes × Bytes) := items.flatMap Item.made

theorem joinedRun {conf : Conf} {items : List Item} {rest : Rest} {t : Parser}
    (run : Runs.exec onChar (fresh conf) (joined items rest) = some t) :
    t.conf = assign conf (made items) ∧ (t.label = .beginline ↔ rest = .nothing) := by
  induction items generalizing conf with
  | nil => exact restRun run
  | cons item items ih =>
    rw [joinedCons,Runs.execAppend] at run
    obtain ⟨m,first,later⟩ := Option.bind_eq_some_iff.mp run
    obtain rfl := itemRun first
    obtain ⟨assigned,ended⟩ := ih later
    refine ⟨?_,ended⟩
    rw [assigned,made,made,List.flatMap_cons,assignAppend]

theorem parsedParts {conf after : Conf} {text : Bytes} {accepted : Bool}
    (parsed : parseConfig conf text = some (accepted,after)) :
    ∃ items rest, cstr text = joined items rest ∧ after = assign conf (made items) ∧
      (accepted = true ↔ rest = .nothing) := by
  rw [parseConfig,parseRun] at parsed
  obtain ⟨t,run,result⟩ := Option.map_eq_some_iff.mp parsed
  obtain ⟨items,rest,split⟩ := pieces (cstr text)
  rw [split] at run
  obtain ⟨assigned,ended⟩ := joinedRun run
  obtain ⟨rfl,rfl⟩ := Prod.mk.inj result
  exact ⟨items,rest,split,assigned,beq_iff_eq.trans ended⟩

/-- A reload that fails has found no file, or a text that ends inside a comment, a key or a
value; every key then has the value of the last complete assignment before that, and its old
value if there is none. -/
theorem failedReload {s t : Store} {file : Option Bytes}
    (failed : reloadConfigs s file = some (false,t)) :
    ((s.saved = none ∨ file = none) ∧ t = s) ∨
    ∃ text items rest, file = some text ∧ cstr text = joined items rest ∧ rest ≠ .nothing ∧
      t.saved = s.saved ∧ ∀ key, getConfig t.conf key =
        (lastValue (made items) key).getD (getConfig s.conf key) := by
  obtain ⟨conf,saved⟩ := s
  cases saved with
  | none => exact .inl ⟨.inl rfl,(congrArg Prod.snd (Option.some.inj failed)).symm⟩
  | some name =>
    cases file with
    | none => exact .inl ⟨.inr rfl,(congrArg Prod.snd (Option.some.inj failed)).symm⟩
    | some text =>
      obtain ⟨⟨accepted,after⟩,parsed,result⟩ := Option.map_eq_some_iff.mp failed
      obtain ⟨rfl,rfl⟩ := Prod.mk.inj result
      obtain ⟨items,rest,split,rfl,ended⟩ := parsedParts parsed
      refine .inr ⟨text,items,rest,rfl,split,?_,rfl,getAssign conf (made items)⟩
      exact fun whole => Bool.false_ne_true (ended.mpr whole)

theorem failedReloadCut : ∃ text items rest,
    some (ascii "a=2\nb") = some text ∧ cstr text = joined items rest ∧ rest ≠ .nothing ∧
      ∀ key, getConfig [(ascii "a",ascii "2"),(ascii "a",ascii "1")] key =
        (lastValue (made items) key).getD (getConfig [(ascii "a",ascii "1")] key) := by
  have failed : reloadConfigs ⟨[(ascii "a",ascii "1")],some (ascii "x.ini")⟩ (some (ascii "a=2\nb")) =
      some (false,⟨[(ascii "a",ascii "2"),(ascii "a",ascii "1")],some (ascii "x.ini")⟩) := by decide
  obtain ⟨unread,-⟩ | ⟨text,items,rest,read,split,open_,-,values⟩ := failedReload failed
  · simp at unread
  · exact ⟨text,items,rest,read,split,open_,values⟩

theorem cutReloadAssigns : ¬ ∀ s file t, reloadConfigs s file = some (false,t) →
    ∀ key, getConfig t.conf key = getConfig s.conf key := by
  intro claim
  have failed : reloadConfigs ⟨[],some (ascii "x.ini")⟩ (some (ascii "a=1\nb")) =
      some (false,⟨[(ascii "a",ascii "1")],some (ascii "x.ini")⟩) := by decide
  exact absurd (claim _ _ _ failed (ascii "a")) (by decide)

end RfidStation.Reload
