import RfidStation.Config
import RfidStation.Lib.Lines
import RfidStation.Lib.Runs

/-! The configuration file (parse_config, load_config and reload_configs in config.c). The
parser's state is the one in which it waits for the next character; a character is then
followed from label to label up to the next `next` or `next_maybe_eof`. -/
namespace RfidStation.ConfigFile
open Cstr Config

def isgraph (c : UInt8) : Bool := 33 ≤ c && c ≤ 126

def maxStrlen : Nat := 100

/- Where the parser waits. At `beginline` the file may end. -/
inductive Label where
  | beginline | comment | readkey | readvalue
  deriving DecidableEq, Repr

structure Parser where
  label : Label
  key : Bytes
  value : Bytes
  conf : Conf
  deriving DecidableEq, Repr

-- `key[strlen(key)] = c`. `none`: no NUL is left in the array and strlen runs past its end.
def putChar (text : Bytes) (c : UInt8) : Option Bytes :=
  if text.length < maxStrlen then some (text ++ [c]) else none

def readkey (s : Parser) (c : UInt8) : Option Parser :=
  if isgraph c then
    if c = 61 then some {s with label := .readvalue}
    else (putChar s.key c).map (fun key => {s with label := .readkey, key := key})
  else some {s with label := .readkey}

-- add_config copies both arrays with strdup.
def readvalue (s : Parser) (c : UInt8) : Option Parser :=
  if c = 10 then
    if s.key.length < maxStrlen ∧ s.value.length < maxStrlen then
      some ⟨.beginline,[],[],addConfig s.conf s.key s.value⟩
    else none
  else if isgraph c ∧ c ≠ 34 then
    (putChar s.value c).map (fun value => {s with value := value})
  else some s

def beginline (s : Parser) (c : UInt8) : Option Parser :=
  if c = 59 ∨ c = 91 then some {s with label := .comment}
  else if c = 10 then some s
  else readkey s c

def comment (s : Parser) (c : UInt8) : Option Parser :=
  if c = 10 then some {s with label := .beginline} else some s

def onChar (s : Parser) (c : UInt8) : Option Parser :=
  match s.label with
  | .beginline => beginline s c
  | .comment => comment s c
  | .readkey => readkey s c
  | .readvalue => readvalue s c

-- A NUL in the file reads like its end.
def parse (s : Parser) : Bytes → Option (Bool × Conf)
  | [] => some (s.label == .beginline,s.conf)
  | c :: file =>
      if c = 0 then some (s.label == .beginline,s.conf)
      else (onChar s c).bind (fun t => parse t file)

def fresh (conf : Conf) : Parser := ⟨.beginline,[],[],conf⟩

def parseConfig (conf : Conf) (file : Bytes) : Option (Bool × Conf) := parse (fresh conf) file

structure Store where
  conf : Conf
  saved : Option Bytes
  deriving DecidableEq, Repr

def initial : Store := ⟨[],none⟩

def loadConfig (s : Store) (name : Bytes) : Option Bytes → Option (Bool × Store)
  | none => some (false,s)
  | some file => (parseConfig s.conf file).map (fun r => (r.1,⟨r.2,some name⟩))

def reloadConfigs (s : Store) (file : Option Bytes) : Option (Bool × Store) :=
  match s.saved, file with
  | some name, some file => (parseConfig s.conf file).map (fun r => (r.1,⟨r.2,some name⟩))
  | _, _ => some (false,s)

inductive Act where
  | load (name : Bytes) (file : Option Bytes)
  | reload (file : Option Bytes)
  deriving DecidableEq, Repr

def step (s : Store) : Act → Option Store
  | .load name file => (loadConfig s name file).map Prod.snd
  | .reload file => (reloadConfigs s file).map Prod.snd

theorem parseRun (s : Parser) (file : Bytes) : parse s file =
    (Runs.exec onChar s (cstr file)).map (fun t => (t.label == .beginline,t.conf)) := by
  induction file generalizing s with
  | nil => rfl
  | cons c rest ih =>
    rw [parse,cstrCons]
    split
    · rfl
    · rw [Runs.exec,Option.map_bind]
      exact Option.bind_congr (fun t _ => ih t)

def keyText (text : Bytes) : Bytes := text.filter isgraph

def isValue (c : UInt8) : Bool := isgraph c && c ≠ 34

def valueText (text : Bytes) : Bytes := text.filter isValue

theorem emptyFits : ([] : Bytes).length ≤ maxStrlen := Nat.zero_le maxStrlen

theorem gatherRun (wait : Bytes → Parser) {shows : UInt8 → Bool} {text gathered : Bytes}
    (reads : ∀ c ∈ text, ∀ gathered, onChar (wait gathered) c =
      if shows c then (putChar gathered c).map wait else some (wait gathered))
    (fits : gathered.length ≤ maxStrlen) : Runs.exec onChar (wait gathered) text =
      if (gathered ++ text.filter shows).length ≤ maxStrlen then
        some (wait (gathered ++ text.filter shows)) else none := by
  induction text generalizing gathered with
  | nil => simp [Runs.exec,fits]
  | cons c rest ih =>
    have now := reads c List.mem_cons_self gathered
    have readsRest : ∀ d ∈ rest, ∀ gathered, onChar (wait gathered) d =
        if shows d then (putChar gathered d).map wait else some (wait gathered) :=
      fun d mem => reads d (List.mem_cons_of_mem c mem)
    by_cases shown : shows c = true
    · rw [if_pos shown,putChar] at now
      rw [List.filter_cons_of_pos shown,Runs.exec,now]
      split
      · rename_i room
        have longer : (gathered ++ [c]).length ≤ maxStrlen := by
          rw [List.length_append]
          exact room
        rw [Option.map_some,Option.bind_some,ih readsRest longer,List.append_assoc]
        rfl
      · rename_i full
        rw [if_neg (by rw [List.length_append,List.length_cons]; omega)]
        rfl
    · rw [if_neg shown] at now
      rw [List.filter_cons_of_neg shown,Runs.exec,now,Option.bind_some,ih readsRest fits]

theorem keyRun {text key : Bytes} (value : Bytes) (conf : Conf) (inKey : 61 ∉ text)
    (fits : key.length ≤ maxStrlen) : Runs.exec onChar ⟨.readkey,key,value,conf⟩ text =
      if (key ++ keyText text).length ≤ maxStrlen then
        some ⟨.readkey,key ++ keyText text,value,conf⟩ else none := by
  refine gatherRun (fun key => ⟨.readkey,key,value,conf⟩) (fun c mem gathered => ?_) fits
  have other : c ≠ 61 := fun same => inKey (same ▸ mem)
  simp only [onChar,readkey,if_neg other]

theorem valueRun {text value : Bytes} (key : Bytes) (conf : Conf) (inValue : 10 ∉ text)
    (fits : value.length ≤ maxStrlen) : Runs.exec onChar ⟨.readvalue,key,value,conf⟩ text =
      if (value ++ valueText text).length ≤ maxStrlen then
        some ⟨.readvalue,key,value ++ valueText text,conf⟩ else none := by
  refine gatherRun (fun value => ⟨.readvalue,key,value,conf⟩) (fun c mem gathered => ?_) fits
  have other : c ≠ 10 := fun same => inValue (same ▸ mem)
  simp only [onChar,readvalue,if_neg other,isValue,Bool.and_eq_true,decide_eq_true_eq]

theorem assignRun (before after : Bytes) {key : Bytes} (conf : Conf) (inKey : 61 ∉ before)
    (inValue : 10 ∉ after) (fits : key.length ≤ maxStrlen) :
    Runs.exec onChar ⟨.readkey,key,[],conf⟩ (before ++ 61 :: after) =
      if (key ++ keyText before).length ≤ maxStrlen ∧ (valueText after).length ≤ maxStrlen then
        some ⟨.readvalue,key ++ keyText before,valueText after,conf⟩ else none := by
  rw [Runs.execAppend,keyRun [] conf inKey fits]
  split
  · rename_i room
    have moved : onChar ⟨.readkey,key ++ keyText before,[],conf⟩ 61 =
        some ⟨.readvalue,key ++ keyText before,[],conf⟩ := rfl
    rw [Option.bind_some,Runs.exec,moved,Option.bind_some,valueRun _ conf inValue emptyFits]
    simp only [room,true_and,List.nil_append]
  · rename_i full
    rw [if_neg (fun both => full both.1)]
    rfl

theorem settingRun (before after : Bytes) {key : Bytes} (conf : Conf) (inKey : 61 ∉ before)
    (inValue : 10 ∉ after) (fits : key.length ≤ maxStrlen) :
    Runs.exec onChar ⟨.readkey,key,[],conf⟩ (before ++ 61 :: after ++ [10]) =
      if (key ++ keyText before).length < maxStrlen ∧ (valueText after).length < maxStrlen then
        some (fresh (addConfig conf (key ++ keyText before) (valueText after))) else none := by
  rw [Runs.execAppend,assignRun before after conf inKey inValue fits]
  split
  · simp [Runs.exec,onChar,readvalue,fresh]
  · rename_i full
    rw [if_neg (fun both => full ⟨Nat.le_of_lt both.1,Nat.le_of_lt both.2⟩)]
    rfl

theorem commentRun {text : Bytes} (s : Parser) (inComment : 10 ∉ text) (here : s.label = .comment) :
    Runs.exec onChar s text = some s := by
  induction text with
  | nil => rfl
  | cons c rest ih =>
    obtain ⟨other,later⟩ := List.ne_and_not_mem_of_not_mem_cons inComment
    have moved : onChar s c = some s := by simp [onChar,here,comment,Ne.symm other]
    rw [Runs.exec,moved,Option.bind_some,ih later]

def IsComment (line : Bytes) : Prop := line.head? = some 59 ∨ line.head? = some 91

instance (line : Bytes) : Decidable (IsComment line) := by
  unfold IsComment
  infer_instance

def setting (line : Bytes) : Option (Bytes × Bytes) :=
  if IsComment line ∨ 61 ∉ line then none
  else some (keyText (Lines.before 61 line),valueText (Lines.after 61 line))

def settings (text : Bytes) : List (Bytes × Bytes) := (Lines.whole 10 text).filterMap setting

def assign (conf : Conf) (made : List (Bytes × Bytes)) : Conf := made.reverse ++ conf

theorem quietSetting {line : Bytes} (quiet : line = [] ∨ IsComment line) : setting line = none := by
  rcases quiet with rfl | comment
  · rfl
  · exact if_pos (.inl comment)

theorem settingOf {line : Bytes} (notComment : ¬ IsComment line) (assigns : 61 ∈ line) :
    setting line = some (keyText (Lines.before 61 line),valueText (Lines.after 61 line)) :=
  if_neg (fun h => h.elim notComment (fun none => none assigns))

theorem settingsCons (line : Bytes) (rest : List Bytes) :
    (line :: rest).filterMap setting = (setting line).toList ++ rest.filterMap setting := by
  cases shape : setting line with
  | none => rw [List.filterMap_cons_none shape]; rfl
  | some a => rw [List.filterMap_cons_some shape]; rfl

theorem assignAppend (conf : Conf) (made more : List (Bytes × Bytes)) :
    assign conf (made ++ more) = assign (assign conf made) more := by
  rw [assign,assign,assign,List.reverse_append,List.append_assoc]

theorem commentLineRun {line : Bytes} (conf : Conf) (isComment : IsComment line) (inLine : 10 ∉ line) :
    Runs.exec onChar (fresh conf) line = some ⟨.comment,[],[],conf⟩ := by
  cases line with
  | nil => simp [IsComment] at isComment
  | cons c rest =>
    obtain ⟨-,later⟩ := List.ne_and_not_mem_of_not_mem_cons inLine
    have first : c = 59 ∨ c = 91 := by simpa [IsComment] using isComment
    have moved : onChar (fresh conf) c = some ⟨.comment,[],[],conf⟩ := by
      simp only [fresh,onChar,beginline,if_pos first]
    rw [Runs.exec,moved,Option.bind_some,commentRun _ later rfl]

theorem quietRun {line : Bytes} (conf : Conf) (quiet : line = [] ∨ IsComment line)
    (inLine : 10 ∉ line) : Runs.exec onChar (fresh conf) (line ++ [10]) = some (fresh conf) := by
  rcases quiet with rfl | isComment
  · rfl
  · rw [Runs.execAppend,commentLineRun conf isComment inLine]
    rfl

theorem beginChar {c : UInt8} {rest : Bytes} (conf : Conf) (notComment : ¬ IsComment (c :: rest))
    (notNewline : (c :: rest).head? ≠ some 10) :
    onChar (fresh conf) c = onChar ⟨.readkey,[],[],conf⟩ c := by
  have other : c ≠ 10 := fun same => notNewline (congrArg some same)
  have first : ¬ (c = 59 ∨ c = 91) := by simpa [IsComment] using notComment
  simp only [fresh,onChar,beginline,if_neg first,if_neg other,readkey]

theorem beginKey {text : Bytes} (conf : Conf) (some_char : text ≠ []) (notComment : ¬ IsComment text)
    (notNewline : text.head? ≠ some 10) : Runs.exec onChar (fresh conf) text =
      Runs.exec onChar ⟨.readkey,[],[],conf⟩ text := by
  obtain ⟨c,rest,rfl⟩ := List.exists_cons_of_ne_nil some_char
  rw [Runs.exec,beginChar conf notComment notNewline]
  rfl

theorem headInLine {line : Bytes} (inLine : 10 ∉ line) : line.head? ≠ some 10 :=
  fun first => inLine (List.mem_of_head? first)

theorem lineBegins {line : Bytes} (conf : Conf) (some_char : line ≠ []) (notComment : ¬ IsComment line)
    (inLine : 10 ∉ line) : Runs.exec onChar (fresh conf) (line ++ [10]) =
      Runs.exec onChar ⟨.readkey,[],[],conf⟩ (line ++ [10]) := by
  rw [Runs.execAppend,Runs.execAppend,beginKey conf some_char notComment (headInLine inLine)]

theorem settingLineRun {line key : Bytes} (conf : Conf) (assigns : 61 ∈ line) (inLine : 10 ∉ line)
    (fits : key.length ≤ maxStrlen) :
    Runs.exec onChar ⟨.readkey,key,[],conf⟩ (line ++ [10]) =
      if (key ++ keyText (Lines.before 61 line)).length < maxStrlen ∧
          (valueText (Lines.after 61 line)).length < maxStrlen then
        some (fresh (addConfig conf (key ++ keyText (Lines.before 61 line))
          (valueText (Lines.after 61 line)))) else none := by
  have inValue : 10 ∉ Lines.after 61 line := fun mem => inLine (Lines.afterSubset mem)
  have run := settingRun (Lines.before 61 line) _ conf Lines.beforeWithout inValue fits
  rw [Lines.atFirst assigns] at run
  exact run

def control (s : Parser) : Parser := {s with conf := []}

theorem putControl (text : Bytes) (c : UInt8) (f g : Bytes → Parser)
    (same : ∀ text, control (f text) = control (g text)) :
    ((putChar text c).map f).map control = ((putChar text c).map g).map control := by
  cases putChar text c with
  | none => rfl
  | some longer => exact congrArg some (same longer)

theorem readkeyControl (s : Parser) (conf : Conf) (c : UInt8) :
    (readkey {s with conf := conf} c).map control = (readkey s c).map control := by
  simp only [readkey]
  split
  · split
    · rfl
    · exact putControl s.key c _ _ (fun _ => rfl)
  · rfl

theorem readvalueControl (s : Parser) (conf : Conf) (c : UInt8) :
    (readvalue {s with conf := conf} c).map control = (readvalue s c).map control := by
  simp only [readvalue]
  split
  · split <;> rfl
  · split
    · exact putControl s.value c _ _ (fun _ => rfl)
    · rfl

theorem controlChar (s : Parser) (conf : Conf) (c : UInt8) :
    (onChar {s with conf := conf} c).map control = (onChar s c).map control := by
  obtain ⟨label,key,value,old⟩ := s
  cases label with
  | beginline =>
    simp only [onChar,beginline]
    split
    · rfl
    · split
      · rfl
      · exact readkeyControl ⟨.beginline,key,value,old⟩ conf c
  | comment =>
    simp only [onChar,comment]
    split <;> rfl
  | readkey => exact readkeyControl ⟨.readkey,key,value,old⟩ conf c
  | readvalue => exact readvalueControl ⟨.readvalue,key,value,old⟩ conf c

theorem controlRun {s t : Parser} (same : control s = control t) (text : Bytes) :
    (Runs.exec onChar s text).map control = (Runs.exec onChar t text).map control := by
  induction text generalizing s t with
  | nil => exact congrArg some same
  | cons c rest ih =>
    have replaced : s = {t with conf := s.conf} := by
      obtain ⟨label,key,value,conf⟩ := s
      obtain ⟨rfl,rfl,rfl,-⟩ := Parser.mk.inj same
      rfl
    have moved := controlChar t s.conf c
    rw [← replaced] at moved
    rw [Runs.exec,Runs.exec]
    cases first : onChar s c with
    | none =>
      cases second : onChar t c with
      | none => rfl
      | some m => rw [first,second] at moved; cases moved
    | some m =>
      cases second : onChar t c with
      | none => rw [first,second] at moved; cases moved
      | some n =>
        rw [first,second] at moved
        exact ih (Option.some.inj moved)

def Clear (s : Parser) : Prop := match s.label with
  | .beginline | .comment => s.key = [] ∧ s.value = []
  | .readkey => s.value = []
  | .readvalue => True

theorem readkeyClear {s t : Parser} {c : UInt8} (clear : s.value = []) (h : readkey s c = some t) :
    Clear t := by
  unfold readkey at h
  split at h
  · split at h
    · obtain rfl := Option.some.inj h
      trivial
    · obtain ⟨key,-,rfl⟩ := Option.map_eq_some_iff.mp h
      exact clear
  · obtain rfl := Option.some.inj h
    exact clear

theorem charClear {s t : Parser} {c : UInt8} (clear : Clear s) (h : onChar s c = some t) : Clear t := by
  unfold onChar at h
  unfold Clear at clear
  cases here : s.label with
  | beginline =>
    simp only [here] at clear h
    unfold beginline at h
    split at h
    · obtain rfl := Option.some.inj h
      exact clear
    · split at h
      · obtain rfl := Option.some.inj h
        simp only [Clear,here]
        exact clear
      · exact readkeyClear clear.2 h
  | comment =>
    simp only [here] at clear h
    unfold comment at h
    split at h
    · obtain rfl := Option.some.inj h
      exact clear
    · obtain rfl := Option.some.inj h
      simp only [Clear,here]
      exact clear
  | readkey =>
    simp only [here] at clear h
    exact readkeyClear clear h
  | readvalue =>
    simp only [here] at h
    unfold readvalue at h
    split at h
    · obtain ⟨-,rfl⟩ := Runs.guarded h
      exact ⟨rfl,rfl⟩
    · split at h
      · obtain ⟨value,-,rfl⟩ := Option.map_eq_some_iff.mp h
        simp only [Clear,here]
      · obtain rfl := Option.some.inj h
        simp only [Clear,here]

theorem endFresh {conf : Conf} {text : Bytes} {t : Parser}
    (run : Runs.exec onChar (fresh conf) text = some t) (ended : t.label = .beginline) :
    t = fresh t.conf := by
  have start : Clear (fresh conf) := ⟨rfl,rfl⟩
  have clear := Runs.invariant (fun _ _ _ => charClear) start run
  obtain ⟨label,key,value,after⟩ := t
  subst ended
  obtain ⟨rfl,rfl⟩ := clear
  rfl

end RfidStation.ConfigFile
