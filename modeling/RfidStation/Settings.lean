import RfidStation.ConfigFile

/-! What well-formed configuration files mean: the last assignment to a key in the most recent
text that assigns it is its value. -/
namespace RfidStation.Settings
open Cstr Config ConfigFile

/- A line of a well-formed text: empty, a comment or section name, or `key = value`. -/
def GoodLine (line : Bytes) : Prop := line = [] ∨ IsComment line ∨
  (61 ∈ line ∧ 1 ≤ (keyText (Lines.before 61 line)).length ∧
    (keyText (Lines.before 61 line)).length ≤ 99 ∧ (valueText (Lines.after 61 line)).length ≤ 99)

structure WellFormed (text : Bytes) : Prop where
  chars : 0 ∉ text
  ended : Lines.last 10 text = []
  lines : ∀ line ∈ Lines.whole 10 text, GoodLine line

instance (line : Bytes) : Decidable (GoodLine line) := by
  unfold GoodLine
  infer_instance

instance (text : Bytes) : Decidable (WellFormed text) :=
  decidable_of_iff (0 ∉ text ∧ Lines.last 10 text = [] ∧ ∀ line ∈ Lines.whole 10 text, GoodLine line)
    ⟨fun h => ⟨h.1,h.2.1,h.2.2⟩,fun h => ⟨h.chars,h.ended,h.lines⟩⟩

def lastValue (made : List (Bytes × Bytes)) (key : Bytes) : Option Bytes :=
  (made.reverse.find? (fun a => a.1 = key)).map Prod.snd

def latest (texts : List Bytes) (key : Bytes) : Option Bytes :=
  texts.reverse.findSome? (fun text => lastValue (settings text) key)

-- The text that is read. Nothing is reloaded before a file has been loaded.
def reads (saved : Bool) : Act → Option Bytes
  | .load _ file => file
  | .reload file => if saved then file else none

def texts : (saved : Bool) → List Act → List Bytes
  | _, [] => []
  | saved, a :: rest =>
      (reads saved a).toList ++ texts (saved || (reads saved a).isSome) rest

theorem getAppend (new conf : Conf) (key : Bytes) : getConfig (new ++ conf) key =
    ((new.find? (fun a => a.1 = key)).map Prod.snd).getD (getConfig conf key) := by
  induction new with
  | nil => rfl
  | cons a rest ih =>
    by_cases same : a.1 = key
    · simp [getConfig,same]
    · simp [getConfig,same,ih]

theorem getAssign (conf : Conf) (made : List (Bytes × Bytes)) (key : Bytes) :
    getConfig (assign conf made) key = (lastValue made key).getD (getConfig conf key) :=
  getAppend made.reverse conf key

theorem goodLineRun {line : Bytes} (conf : Conf) (good : GoodLine line) (inLine : 10 ∉ line) :
    Runs.exec onChar (fresh conf) (line ++ [10]) =
      some (fresh (assign conf (setting line).toList)) := by
  by_cases quiet : line = [] ∨ IsComment line
  · rw [quietRun conf quiet inLine,quietSetting quiet]
    rfl
  · obtain ⟨some_char,notComment⟩ := not_or.mp quiet
    obtain ⟨assigns,-,shortKey,shortValue⟩ := (good.resolve_left some_char).resolve_left notComment
    have fits : (keyText (Lines.before 61 line)).length < maxStrlen ∧
        (valueText (Lines.after 61 line)).length < maxStrlen :=
      ⟨Nat.lt_succ_of_le shortKey,Nat.lt_succ_of_le shortValue⟩
    rw [lineBegins conf some_char notComment inLine,settingLineRun conf assigns inLine emptyFits,
      List.nil_append,if_pos fits,settingOf notComment assigns]
    rfl

theorem goodLinesRun {lines : List Bytes} (conf : Conf)
    (good : ∀ line ∈ lines, GoodLine line ∧ 10 ∉ line) :
    Runs.exec onChar (fresh conf) (Lines.joined 10 lines) =
      some (fresh (assign conf (lines.filterMap setting))) := by
  induction lines generalizing conf with
  | nil => rfl
  | cons line rest ih =>
    obtain ⟨first,inLine⟩ := good line List.mem_cons_self
    have later := fun l mem => good l (List.mem_cons_of_mem line mem)
    rw [Lines.joined,List.flatMap_cons,Runs.execAppend,goodLineRun conf first inLine,Option.bind_some]
    rw [settingsCons,assignAppend]
    exact ih _ later

theorem wellFormedParse {text : Bytes} (conf : Conf) (well : WellFormed text) :
    parseConfig conf text = some (true,assign conf (settings text)) := by
  have whole : Lines.joined 10 (Lines.whole 10 text) = text := by
    have parts := Lines.joinedWhole 10 text
    rwa [well.ended,List.append_nil] at parts
  have run := goodLinesRun conf (fun line mem => ⟨well.lines line mem,Lines.wholeWithout 10 text line mem⟩)
  have chars : ∀ b ∈ text, b ≠ 0 := fun b mem zero => well.chars (zero ▸ mem)
  rw [whole] at run
  rw [parseConfig,parseRun,cstrWhole chars,run]
  rfl

theorem latestCons (text : Bytes) (rest : List Bytes) (key default : Bytes) :
    (latest (text :: rest) key).getD default =
      (latest rest key).getD ((lastValue (settings text) key).getD default) := by
  rw [latest,List.reverse_cons,List.findSome?_append,List.findSome?_singleton]
  cases shape : latest rest key with
  | none => rw [latest] at shape; rw [shape]; rfl
  | some value => rw [latest] at shape; rw [shape]; rfl

theorem stepIdle {s : Store} {a : Act} (idle : reads s.saved.isSome a = none) :
    step s a = some s := by
  cases a with
  | load name file =>
    cases file with
    | none => rfl
    | some text => cases idle
  | reload file =>
    simp only [step]
    unfold reloadConfigs
    split
    · rename_i name text saved
      rw [saved] at idle
      cases idle
    · rfl

theorem stepReads {s : Store} {a : Act} {text : Bytes} (h : reads s.saved.isSome a = some text) :
    ∃ name, step s a = (parseConfig s.conf text).map (fun r => ⟨r.2,some name⟩) := by
  cases a with
  | load name file =>
    rw [reads] at h
    subst h
    refine ⟨name,?_⟩
    rw [step,loadConfig,Option.map_map]
    rfl
  | reload file =>
    obtain ⟨saved,rfl⟩ := Option.ite_none_right_eq_some.mp h
    obtain ⟨name,known⟩ := Option.isSome_iff_exists.mp saved
    refine ⟨name,?_⟩
    simp only [step,reloadConfigs,known,Option.map_map]
    rfl

theorem storeRun {s : Store} {acts : List Act}
    (well : ∀ text ∈ texts s.saved.isSome acts, WellFormed text) :
    ∃ t, Runs.exec step s acts = some t ∧ ∀ key, getConfig t.conf key =
      (latest (texts s.saved.isSome acts) key).getD (getConfig s.conf key) := by
  induction acts generalizing s with
  | nil => exact ⟨s,rfl,fun key => rfl⟩
  | cons a rest ih =>
    cases h : reads s.saved.isSome a with
    | none =>
      have same : texts s.saved.isSome (a :: rest) = texts s.saved.isSome rest := by
        simp [texts,h]
      rw [same] at well ⊢
      rw [Runs.exec,stepIdle h]
      exact ih well
    | some text =>
      have more : texts s.saved.isSome (a :: rest) = text :: texts true rest := by
        simp [texts,h]
      rw [more] at well ⊢
      obtain ⟨first,later⟩ := List.forall_mem_cons.mp well
      obtain ⟨name,moved⟩ := stepReads h
      rw [wellFormedParse s.conf first] at moved
      obtain ⟨t,run,values⟩ := ih (s := ⟨assign s.conf (settings text),some name⟩) later
      refine ⟨t,by rw [Runs.exec,moved]; exact run,fun key => ?_⟩
      rw [values key,latestCons,getAssign]
      rfl

/-- parse_config accepts every well-formed text; and after any sequence of loads and reloads
that read well-formed texts, a key has the value of the last assignment in the most recent
text that assigns it, or is empty. -/
theorem newestAssignment :
    (∀ conf text, WellFormed text → ∃ after, parseConfig conf text = some (true,after)) ∧
    ∀ acts, (∀ text ∈ texts false acts, WellFormed text) →
      ∃ t, Runs.exec step initial acts = some t ∧
        ∀ key, getConfig t.conf key = (latest (texts false acts) key).getD [] :=
  ⟨fun conf _ well => ⟨_,wellFormedParse conf well⟩,
    fun _ well => storeRun (s := initial) well⟩

def reloaded : List Act :=
  [.load (ascii "rfid.ini") (some (ascii "[a]\na = 1\nb = \"x y\"\n")),.reload none,
    .reload (some (ascii "; new\n\na=2\na =\t 3\n"))]

theorem newestAssignmentReloaded :
    (∃ after, parseConfig [] (ascii "a=1\n") = some (true,after)) ∧
    ∃ t, Runs.exec step initial reloaded = some t ∧
      ∀ key, getConfig t.conf key = (latest (texts false reloaded) key).getD [] :=
  ⟨newestAssignment.1 [] _ (by decide),newestAssignment.2 reloaded (by decide)⟩

example : ["a","b","c"].map (fun key => (latest (texts false reloaded) (ascii key)).getD []) =
    [ascii "3",ascii "xy",[]] := by decide

end RfidStation.Settings
