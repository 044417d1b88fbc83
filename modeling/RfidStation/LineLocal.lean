import RfidStation.ConfigFile

/-! Whether a line of a configuration file is read on its own. The key loop skips a newline
like any other blank, so a line without `=` runs into the lines after it. -/
namespace RfidStation.LineLocal
open Cstr Config ConfigFile

/- The parser between two lines: the key that a line without `=` has begun, if there is one. -/
structure Between where
  pending : Option Bytes
  conf : Conf
  deriving DecidableEq, Repr

def place (p : Between) : Parser := match p.pending with
  | none => fresh p.conf
  | some key => ⟨.readkey,key,[],p.conf⟩

/- A line that is read as part of a key, and as a value after its first `=`. -/
def closeLine (begun : Bytes) (conf : Conf) (line : Bytes) : Option Between :=
  let key := begun ++ keyText (Lines.before 61 line)
  let value := valueText (Lines.after 61 line)
  if 61 ∈ line then
    if key.length < maxStrlen ∧ value.length < maxStrlen then some ⟨none,addConfig conf key value⟩
    else none
  else if key.length ≤ maxStrlen then some ⟨some key,conf⟩ else none

def onLine (p : Between) (line : Bytes) : Option Between :=
  if p.pending = none ∧ (line = [] ∨ IsComment line) then some p
  else closeLine (p.pending.getD []) p.conf line

def Fits (p : Between) : Prop := (p.pending.getD []).length ≤ maxStrlen

theorem keyLineRun {line key : Bytes} (conf : Conf) (inLine : 10 ∉ line)
    (fits : key.length ≤ maxStrlen) :
    Runs.exec onChar ⟨.readkey,key,[],conf⟩ (line ++ [10]) = (closeLine key conf line).map place := by
  simp only [closeLine]
  split
  · rename_i assigns
    rw [settingLineRun conf assigns inLine fits]
    split <;> rfl
  · rename_i absent
    have inKey : 61 ∉ line ++ [10] := by simpa using absent
    have same : keyText (line ++ [10]) = keyText line := by
      rw [keyText,List.filter_append]
      exact List.append_nil _
    rw [keyRun [] conf inKey fits,same,Lines.beforeWhole absent]
    split <;> rfl

theorem lineRun {p : Between} {line : Bytes} (fits : Fits p) (inLine : 10 ∉ line) :
    Runs.exec onChar (place p) (line ++ [10]) = (onLine p line).map place := by
  obtain ⟨pending,conf⟩ := p
  unfold onLine
  cases pending with
  | some key =>
    rw [if_neg (fun both => by cases both.1)]
    exact keyLineRun conf inLine fits
  | none =>
    by_cases quiet : line = [] ∨ IsComment line
    · rw [if_pos ⟨rfl,quiet⟩]
      exact quietRun conf quiet inLine
    · obtain ⟨some_char,notComment⟩ := not_or.mp quiet
      rw [if_neg (fun both => quiet both.2)]
      exact (lineBegins conf some_char notComment inLine).trans (keyLineRun conf inLine fits)

theorem closeLineCases {begun line : Bytes} {conf : Conf} {q : Between}
    (h : closeLine begun conf line = some q) :
    (61 ∈ line ∧ q = ⟨none,addConfig conf (begun ++ keyText (Lines.before 61 line))
      (valueText (Lines.after 61 line))⟩) ∨
    (61 ∉ line ∧ q = ⟨some (begun ++ keyText line),conf⟩ ∧
      (begun ++ keyText line).length ≤ maxStrlen) := by
  simp only [closeLine] at h
  split at h
  · rename_i assigns
    obtain ⟨-,rfl⟩ := Runs.guarded h
    exact .inl ⟨assigns,rfl⟩
  · rename_i absent
    rw [Lines.beforeWhole absent] at h
    obtain ⟨room,rfl⟩ := Runs.guarded h
    exact .inr ⟨absent,rfl,room⟩

theorem onLineFits {p q : Between} {line : Bytes} (fits : Fits p) (h : onLine p line = some q) :
    Fits q := by
  unfold onLine at h
  split at h
  · obtain rfl := Option.some.inj h
    exact fits
  · obtain ⟨-,rfl⟩ | ⟨-,rfl,room⟩ := closeLineCases h
    · exact emptyFits
    · exact room

theorem linesRun {p : Between} {lines : List Bytes} (fits : Fits p) (inLines : ∀ l ∈ lines, 10 ∉ l) :
    Runs.exec onChar (place p) (Lines.joined 10 lines) =
      (Runs.exec onLine p lines).map place := by
  induction lines generalizing p with
  | nil => rfl
  | cons line rest ih =>
    obtain ⟨inLine,later⟩ := List.forall_mem_cons.mp inLines
    rw [Lines.joined,List.flatMap_cons,Runs.execAppend,lineRun fits inLine,Runs.exec]
    cases h : onLine p line with
    | none => rfl
    | some q => exact ih (onLineFits fits h) later

def Stray (line : Bytes) : Prop := line ≠ [] ∧ ¬ IsComment line ∧ 61 ∉ line

/- The lines after the gathered text, and the unfinished last line: the next line with `=` is
read as on its own, or nothing is assigned and the array for the key is long enough. -/
def Harmless (gathered last : Bytes) : List Bytes → Prop
  | [] => (keyText (gathered ++ Lines.before 61 last)).length ≤ maxStrlen
  | line :: rest =>
      if 61 ∈ line then keyText gathered = [] ∧ ¬ IsComment line
      else Harmless (gathered ++ line) last rest

def Separate (last : Bytes) (lines : List Bytes) : Prop :=
  ∀ front line rest, lines = front ++ line :: rest → Stray line → Harmless line last rest

theorem separateCons {last line : Bytes} {rest : List Bytes} : Separate last (line :: rest) ↔
    (Stray line → Harmless line last rest) ∧ Separate last rest := by
  constructor
  · intro all
    exact ⟨all [] line rest rfl,
      fun front l more split => all (line :: front) l more (by rw [split]; rfl)⟩
  · rintro ⟨first,later⟩ front l more split
    cases front with
    | nil =>
      obtain ⟨rfl,rfl⟩ := List.cons.inj split
      exact first
    | cons f front =>
      obtain ⟨-,tails⟩ := List.cons.inj split
      exact later front l more tails

theorem keyTextAppend (a b : Bytes) : keyText (a ++ b) = keyText a ++ keyText b :=
  List.filter_append ..

theorem keyTextLength (text : Bytes) : (keyText text).length ≤ text.length :=
  List.length_filter_le ..

theorem valueTextLength (text : Bytes) : (valueText text).length ≤ text.length :=
  List.length_filter_le ..

theorem harmlessFits {gathered last : Bytes} {lines : List Bytes}
    (harmless : Harmless gathered last lines) : (keyText gathered).length ≤ maxStrlen := by
  induction lines generalizing gathered with
  | nil =>
    rw [Harmless,keyTextAppend,List.length_append] at harmless
    omega
  | cons line rest ih =>
    rw [Harmless] at harmless
    split at harmless
    · rw [harmless.1]
      exact emptyFits
    · have longer := ih harmless
      rw [keyTextAppend,List.length_append] at longer
      omega

theorem harmlessLater {earlier gathered last : Bytes} {lines : List Bytes}
    (harmless : Harmless (earlier ++ gathered) last lines) : Harmless gathered last lines := by
  induction lines generalizing gathered with
  | nil =>
    rw [Harmless,List.append_assoc,keyTextAppend,List.length_append] at harmless
    rw [Harmless]
    omega
  | cons line rest ih =>
    rw [Harmless] at harmless ⊢
    split at harmless
    · rename_i assigns
      rw [keyTextAppend] at harmless
      rw [if_pos assigns]
      exact ⟨(List.append_eq_nil_iff.mp harmless.1).2,harmless.2⟩
    · rename_i absent
      rw [List.append_assoc] at harmless
      rw [if_neg absent]
      exact ih harmless

theorem absentSetting {line : Bytes} (absent : 61 ∉ line) : setting line = none :=
  if_pos (.inr absent)

theorem settingCount (line : Bytes) : (setting line).toList.length ≤ 1 := by
  cases setting line <;> simp

theorem lineMakes {p q : Between} {line : Bytes} (h : onLine p line = some q) :
    ∃ new, q.conf = new ++ p.conf ∧ (setting line).toList.length ≤ new.length := by
  unfold onLine at h
  split at h
  · rename_i quiet
    obtain rfl := Option.some.inj h
    exact ⟨[],rfl,by rw [quietSetting quiet.2]; exact Nat.le_refl 0⟩
  · obtain ⟨-,rfl⟩ | ⟨absent,rfl,-⟩ := closeLineCases h
    · exact ⟨[(_,_)],rfl,settingCount line⟩
    · exact ⟨[],rfl,by rw [absentSetting absent]; exact Nat.le_refl 0⟩

theorem linesMake {p q : Between} {lines : List Bytes} (run : Runs.exec onLine p lines = some q) :
    ∃ new, q.conf = new ++ p.conf ∧ (lines.filterMap setting).length ≤ new.length := by
  induction lines generalizing p with
  | nil =>
    obtain rfl := Option.some.inj run
    exact ⟨[],rfl,Nat.le_refl 0⟩
  | cons line rest ih =>
    obtain ⟨m,moved,later⟩ := Runs.execCons run
    obtain ⟨first,pushed,count⟩ := lineMakes moved
    obtain ⟨new,all,counts⟩ := ih later
    refine ⟨new ++ first,by rw [all,pushed,List.append_assoc],?_⟩
    rw [settingsCons,List.length_append,List.length_append]
    omega

def LastFits (q : Between) (last : Bytes) : Prop :=
  ∀ key, q.pending = some key → (key ++ keyText (Lines.before 61 last)).length ≤ maxStrlen

def Keeps (p : Between) (last : Bytes) (lines : List Bytes) : Prop :=
  ∃ q, Runs.exec onLine p lines = some q ∧ q.conf = assign p.conf (lines.filterMap setting) ∧
    LastFits q last

theorem keepsCons {p q : Between} {line last : Bytes} {rest : List Bytes}
    (moved : onLine p line = some q) (own : q.conf = assign p.conf (setting line).toList) :
    Keeps p last (line :: rest) ↔ Keeps q last rest := by
  have run : Runs.exec onLine p (line :: rest) = Runs.exec onLine q rest := by
    rw [Runs.exec,moved,Option.bind_some]
  have made : assign p.conf ((line :: rest).filterMap setting) =
      assign q.conf (rest.filterMap setting) := by
    rw [settingsCons,own,assignAppend]
  rw [Keeps,Keeps,run,made]

theorem aloneLine {line : Bytes} (conf : Conf) (notComment : ¬ IsComment line) (assigns : 61 ∈ line)
    (short : line.length ≤ 99) :
    closeLine [] conf line = some ⟨none,assign conf (setting line).toList⟩ := by
  have parts := Lines.firstLength assigns
  have key := keyTextLength (Lines.before 61 line)
  have value := valueTextLength (Lines.after 61 line)
  have fits : (keyText (Lines.before 61 line)).length < maxStrlen ∧
      (valueText (Lines.after 61 line)).length < maxStrlen := by
    unfold maxStrlen
    omega
  simp only [closeLine,List.nil_append,if_pos assigns,if_pos fits,settingOf notComment assigns]
  rfl

theorem spoiledLine {gathered line last : Bytes} {rest : List Bytes} {conf : Conf}
    (assigns : 61 ∈ line) (spoiled : ¬ (keyText gathered = [] ∧ ¬ IsComment line)) :
    ¬ Keeps ⟨some (keyText gathered),conf⟩ last (line :: rest) := by
  rintro ⟨q,run,own,-⟩
  obtain ⟨m,moved,later⟩ := Runs.execCons run
  have closed : closeLine (keyText gathered) conf line = some m := moved
  obtain ⟨-,rfl⟩ | ⟨absent,-⟩ := closeLineCases closed
  · obtain ⟨new,all,count⟩ := linesMake later
    rw [all,assign,settingsCons,List.reverse_append,List.append_assoc] at own
    by_cases comment : IsComment line
    · -- a comment that assigns: one assignment too many
      rw [quietSetting (.inr comment)] at own
      have lengths := congrArg List.length own
      simp [addConfig] at lengths
      omega
    · -- the key holds more than what stands on this line
      rw [settingOf comment assigns] at own
      have lengths := congrArg List.length own
      simp [addConfig] at lengths
      obtain ⟨-,tails⟩ := List.append_inj own (by rw [List.length_reverse]; omega)
      have keys := congrArg Prod.fst (List.cons.inj tails).1
      exact spoiled ⟨List.append_left_eq_self.mp keys,comment⟩
  · exact absent assigns

structure Local (last : Bytes) (lines : List Bytes) : Prop where
  alone : ∀ conf, Keeps ⟨none,conf⟩ last lines ↔ Separate last lines
  joined : ∀ conf gathered, (keyText gathered).length ≤ maxStrlen →
    (Keeps ⟨some (keyText gathered),conf⟩ last lines ↔
      Harmless gathered last lines ∧ Separate last lines)

theorem aloneCons {last line : Bytes} {rest : List Bytes} (later : Local last rest)
    (short : line.length ≤ 99) (conf : Conf) :
    Keeps ⟨none,conf⟩ last (line :: rest) ↔ Separate last (line :: rest) := by
  rw [separateCons]
  by_cases quiet : line = [] ∨ IsComment line
  · have moved : onLine ⟨none,conf⟩ line = some ⟨none,conf⟩ := if_pos ⟨rfl,quiet⟩
    have notStray : ¬ Stray line := fun stray => quiet.elim stray.1 stray.2.1
    rw [keepsCons moved (by rw [quietSetting quiet]; rfl),later.alone]
    exact ⟨fun separate => ⟨fun stray => (notStray stray).elim,separate⟩,And.right⟩
  · have closed : onLine ⟨none,conf⟩ line = closeLine [] conf line :=
      if_neg (fun both => quiet both.2)
    obtain ⟨some_char,notComment⟩ := not_or.mp quiet
    by_cases assigns : 61 ∈ line
    · have moved := closed.trans (aloneLine conf notComment assigns short)
      rw [keepsCons moved rfl,later.alone]
      exact ⟨fun separate => ⟨fun stray => (stray.2.2 assigns).elim,separate⟩,And.right⟩
    · have room : (keyText line).length ≤ maxStrlen := by
        have bound := keyTextLength line
        unfold maxStrlen
        omega
      have moved : onLine ⟨none,conf⟩ line = some ⟨some (keyText line),conf⟩ := by
        rw [closed]
        simp only [closeLine,if_neg assigns,Lines.beforeWhole assigns,List.nil_append,if_pos room]
      have stray : Stray line := ⟨some_char,notComment,assigns⟩
      rw [keepsCons moved (by rw [absentSetting assigns]; rfl),later.joined conf line room]
      exact ⟨fun h => ⟨fun _ => h.1,h.2⟩,fun h => ⟨h.1 stray,h.2⟩⟩

theorem joinedCons {last line : Bytes} {rest : List Bytes} (later : Local last rest)
    (short : line.length ≤ 99) (conf : Conf) (gathered : Bytes) :
    Keeps ⟨some (keyText gathered),conf⟩ last (line :: rest) ↔
      Harmless gathered last (line :: rest) ∧ Separate last (line :: rest) := by
  have closed : onLine ⟨some (keyText gathered),conf⟩ line =
      closeLine (keyText gathered) conf line := rfl
  rw [Harmless,separateCons]
  by_cases assigns : 61 ∈ line
  · rw [if_pos assigns]
    by_cases harmless : keyText gathered = [] ∧ ¬ IsComment line
    · rw [harmless.1] at closed
      have moved := closed.trans (aloneLine conf harmless.2 assigns short)
      rw [harmless.1,keepsCons moved rfl,later.alone]
      exact ⟨fun separate => ⟨⟨rfl,harmless.2⟩,fun stray => (stray.2.2 assigns).elim,separate⟩,
        fun h => h.2.2⟩
    · exact iff_of_false (spoiledLine assigns harmless) (fun h => harmless h.1)
  · rw [if_neg assigns]
    by_cases room : (keyText (gathered ++ line)).length ≤ maxStrlen
    · have moved : onLine ⟨some (keyText gathered),conf⟩ line =
          some ⟨some (keyText (gathered ++ line)),conf⟩ := by
        rw [keyTextAppend] at room ⊢
        rw [closed]
        simp only [closeLine,if_neg assigns,Lines.beforeWhole assigns,if_pos room]
      rw [keepsCons moved (by rw [absentSetting assigns]; rfl),later.joined conf _ room]
      exact ⟨fun h => ⟨h.1,fun _ => harmlessLater h.1,h.2⟩,fun h => ⟨h.1,h.2.2⟩⟩
    · refine iff_of_false ?_ (fun h => room (harmlessFits h.1))
      rintro ⟨q,run,-⟩
      obtain ⟨m,moved,-⟩ := Runs.execCons run
      obtain ⟨here,-⟩ | ⟨-,-,fitting⟩ := closeLineCases (closed.symm.trans moved)
      · exact assigns here
      · rw [keyTextAppend] at room
        exact room fitting

theorem keepsIff {last : Bytes} {lines : List Bytes} (short : ∀ l ∈ lines, l.length ≤ 99) :
    Local last lines := by
  induction lines with
  | nil =>
    have separate : Separate last [] := fun front line rest split => by simp at split
    constructor
    · intro conf
      exact ⟨fun _ => separate,fun _ => ⟨⟨none,conf⟩,rfl,rfl,fun key none => by cases none⟩⟩
    · intro conf gathered _
      rw [Harmless,keyTextAppend]
      constructor
      · rintro ⟨q,run,-,fits⟩
        obtain rfl := Option.some.inj run
        exact ⟨fits _ rfl,separate⟩
      · rintro ⟨fits,-⟩
        refine ⟨_,rfl,rfl,fun key begun => ?_⟩
        obtain rfl := Option.some.inj begun
        exact fits
  | cons line rest ih =>
    obtain ⟨shortLine,shortRest⟩ := List.forall_mem_cons.mp short
    have later := ih shortRest
    exact ⟨aloneCons later shortLine,fun conf gathered _ => joinedCons later shortLine conf gathered⟩

theorem confOf {run : Option Parser} {room : Prop} [Decidable room] {t : Parser} {conf after : Conf}
    (shape : run = if room then some t else none) (same : t.conf = conf) :
    (∃ u, run = some u ∧ u.conf = after) ↔ room ∧ conf = after := by
  rw [shape]
  constructor
  · rintro ⟨u,h,made⟩
    obtain ⟨enough,rfl⟩ := Runs.guarded h
    exact ⟨enough,same.symm.trans made⟩
  · rintro ⟨enough,made⟩
    exact ⟨t,if_pos enough,same.trans made⟩

theorem keyLastRun {last key : Bytes} {conf after : Conf} (inLast : 10 ∉ last)
    (short : last.length ≤ 99) (fits : key.length ≤ maxStrlen) :
    (∃ t, Runs.exec onChar ⟨.readkey,key,[],conf⟩ last = some t ∧ t.conf = after) ↔
      (key ++ keyText (Lines.before 61 last)).length ≤ maxStrlen ∧ conf = after := by
  by_cases assigns : 61 ∈ last
  · have parts := Lines.firstLength assigns
    have value : (valueText (Lines.after 61 last)).length ≤ maxStrlen := by
      have bound := valueTextLength (Lines.after 61 last)
      unfold maxStrlen
      omega
    have inValue : 10 ∉ Lines.after 61 last := fun mem => inLast (Lines.afterSubset mem)
    have run := assignRun (Lines.before 61 last) _ conf Lines.beforeWithout inValue fits
    rw [Lines.atFirst assigns] at run
    simp only [value,and_true] at run
    exact confOf run rfl
  · have run := keyRun [] conf assigns fits
    rw [Lines.beforeWhole assigns]
    exact confOf run rfl

theorem lastRun {q : Between} {last : Bytes} {after : Conf} (fits : Fits q) (inLast : 10 ∉ last)
    (short : last.length ≤ 99) :
    (∃ t, Runs.exec onChar (place q) last = some t ∧ t.conf = after) ↔
      LastFits q last ∧ q.conf = after := by
  obtain ⟨pending,conf⟩ := q
  cases pending with
  | some key =>
    refine (keyLastRun inLast short fits).trans (and_congr_left fun _ => ?_)
    exact ⟨fun room k here => Option.some.inj here ▸ room,fun all => all key rfl⟩
  | none =>
    have anyway : LastFits ⟨none,conf⟩ last := fun key none => by cases none
    have quiet {t : Parser} (run : Runs.exec onChar (fresh conf) last = some t)
        (same : t.conf = conf) :
        (∃ t, Runs.exec onChar (fresh conf) last = some t ∧ t.conf = after) ↔ conf = after := by
      rw [← true_and (conf = after)]
      exact confOf (run.trans (if_pos trivial).symm) same
    rw [and_iff_right anyway]
    by_cases nothing : last = []
    · exact quiet (by rw [nothing]; rfl) rfl
    · by_cases isComment : IsComment last
      · exact quiet (commentLineRun conf isComment inLast) rfl
      · have room : ([] ++ keyText (Lines.before 61 last)).length ≤ maxStrlen := by
          have key := keyTextLength (Lines.before 61 last)
          have shorter : (Lines.before 61 last).length ≤ last.length :=
            (List.takeWhile_sublist _).length_le
          unfold maxStrlen
          rw [List.nil_append]
          omega
        have begins := beginKey conf nothing isComment (headInLine inLast)
        show (∃ t, Runs.exec onChar (fresh conf) last = some t ∧ t.conf = after) ↔ _
        rw [begins,keyLastRun inLast short emptyFits,and_iff_right room]

structure Short (text : Bytes) : Prop where
  chars : 0 ∉ text
  lines : ∀ line ∈ Lines.whole 10 text, line.length ≤ 99
  last : (Lines.last 10 text).length ≤ 99

/- Every line contributes the single assignment written on it, and nothing else is assigned. -/
def OwnSettings (text : Bytes) : Prop :=
  ∀ conf, ∃ accepted, parseConfig conf text = some (accepted,assign conf (settings text))

def Accepts (conf : Conf) (text : Bytes) : Prop := ∃ after, parseConfig conf text = some (true,after)

theorem parsesTo {conf after : Conf} {text : Bytes} (chars : 0 ∉ text) :
    (∃ accepted, parseConfig conf text = some (accepted,after)) ↔
      ∃ t, Runs.exec onChar (fresh conf) text = some t ∧ t.conf = after := by
  have nonzero : ∀ b ∈ text, b ≠ 0 := fun b mem zero => chars (zero ▸ mem)
  rw [parseConfig,parseRun,cstrWhole nonzero]
  constructor
  · rintro ⟨accepted,h⟩
    obtain ⟨t,run,result⟩ := Option.map_eq_some_iff.mp h
    exact ⟨t,run,congrArg Prod.snd result⟩
  · rintro ⟨t,run,rfl⟩
    exact ⟨_,by rw [run]; rfl⟩

theorem parsesOwn {conf : Conf} {text : Bytes} (short : Short text) :
    (∃ accepted, parseConfig conf text = some (accepted,assign conf (settings text))) ↔
      Keeps ⟨none,conf⟩ (Lines.last 10 text) (Lines.whole 10 text) := by
  have whole := linesRun (p := ⟨none,conf⟩) emptyFits (Lines.wholeWithout 10 text)
  have begins : fresh conf = place ⟨none,conf⟩ := rfl
  have run : Runs.exec onChar (fresh conf) text =
      ((Runs.exec onLine ⟨none,conf⟩ (Lines.whole 10 text)).map place).bind
        (fun t => Runs.exec onChar t (Lines.last 10 text)) := by
    rw [begins,← whole,← Runs.execAppend,Lines.joinedWhole]
  rw [parsesTo short.chars,run,Keeps]
  cases middle : Runs.exec onLine ⟨none,conf⟩ (Lines.whole 10 text) with
  | none => simp
  | some q =>
    have start : Fits ⟨none,conf⟩ := emptyFits
    have fits := Runs.invariant (fun _ _ _ => onLineFits) start middle
    refine (lastRun fits Lines.lastWithout short.last).trans ⟨?_,?_⟩
    · rintro ⟨lastFits,made⟩
      exact ⟨q,rfl,made,lastFits⟩
    · rintro ⟨m,same,made,lastFits⟩
      obtain rfl := Option.some.inj same
      exact ⟨lastFits,made⟩

theorem acceptsControl {conf : Conf} {text : Bytes} : Accepts conf text ↔
    (Runs.exec onChar (fresh conf) (cstr text)).map control = some (fresh []) := by
  rw [Accepts,parseConfig,parseRun]
  cases run : Runs.exec onChar (fresh conf) (cstr text) with
  | none => simp
  | some t =>
    constructor
    · rintro ⟨after,result⟩
      have ended := congrArg Prod.fst (Option.some.inj result)
      rw [endFresh run (beq_iff_eq.mp ended)]
      rfl
    · intro same
      have ended := congrArg Parser.label (Option.some.inj same)
      exact ⟨t.conf,congrArg some (Prod.ext (beq_iff_eq.mpr ended) rfl)⟩

theorem acceptsAppend {conf confA confB : Conf} {a b : Bytes} (chars : 0 ∉ a)
    (first : Accepts confA a) (second : Accepts confB b) : Accepts conf (a ++ b) := by
  have nonzero : ∀ c ∈ a, c ≠ 0 := fun c mem zero => chars (zero ▸ mem)
  have joined : cstr (a ++ b) = a ++ cstr b :=
    List.takeWhile_append_of_pos (fun c mem => by simpa using nonzero c mem)
  rw [acceptsControl] at first second ⊢
  have same : control (fresh confA) = control (fresh conf) := rfl
  rw [cstrWhole nonzero,controlRun same] at first
  obtain ⟨s,run,ended⟩ := Option.map_eq_some_iff.mp first
  have again : control s = control (fresh confB) := ended
  rw [joined,Runs.execAppend,run,Option.bind_some,controlRun again]
  exact second

/-- A text assigns what is written on its lines exactly when no line without `=` runs into
another; and two accepted texts make an accepted text. -/
theorem lineLocalIff (text : Bytes) (short : Short text) :
    (OwnSettings text ↔ Separate (Lines.last 10 text) (Lines.whole 10 text)) ∧
    ∀ conf confA confB a b, 0 ∉ a → Accepts confA a → Accepts confB b → Accepts conf (a ++ b) := by
  refine ⟨?_,fun _ _ _ _ _ chars first second => acceptsAppend chars first second⟩
  have iffs : Local (Lines.last 10 text) (Lines.whole 10 text) := keepsIff short.lines
  constructor
  · intro own
    exact (iffs.alone []).mp ((parsesOwn short).mp (own []))
  · intro separate conf
    exact (parsesOwn short).mpr ((iffs.alone conf).mpr separate)

theorem lineLocalIffBlank :
    (OwnSettings (ascii "\r\nport=80\r\n") ↔
      Separate (Lines.last 10 (ascii "\r\nport=80\r\n")) (Lines.whole 10 (ascii "\r\nport=80\r\n"))) ∧
    Accepts [] (ascii "a = 1\n" ++ ascii ";note\nb=2\n") :=
  have both := lineLocalIff (ascii "\r\nport=80\r\n") ⟨by decide,by decide,by decide⟩
  ⟨both.1,both.2 [] [] [] _ _ (by decide) ⟨[(ascii "a",ascii "1")],by decide⟩
    ⟨[(ascii "b",ascii "2")],by decide⟩⟩

theorem blankLineMerges : ¬ ∀ text, Short text → OwnSettings text := by
  intro claim
  have short : Short (ascii "\r\n;note\r\nport=80\r\n") := ⟨by decide,by decide,by decide⟩
  obtain ⟨accepted,own⟩ := claim _ short []
  have merged : (parseConfig [] (ascii "\r\n;note\r\nport=80\r\n")).map Prod.snd =
      some [(ascii ";noteport",ascii "80")] := by decide
  rw [own] at merged
  have different : assign [] (settings (ascii "\r\n;note\r\nport=80\r\n")) ≠
      [(ascii ";noteport",ascii "80")] := by decide
  exact different (Option.some.inj merged)

end RfidStation.LineLocal
