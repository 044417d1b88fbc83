import RfidStation.Config
import RfidStation.Lib.History
import RfidStation.Lib.Linked
import RfidStation.Lib.Runs
import Mathlib.Logic.Function.Basic

/-! get_config in any number of threads while a reload adds settings (config.c), without a lock:
add_config fills a new node and makes it the first one, each assignment a step; a lookup reads
`conf` once and then a field at a time. `log` is history, the newest event first. -/
namespace RfidStation.Lookups
open Cstr Config Linked
variable {ι : Type} [DecidableEq ι]

-- The strings of a struct config; `none` is not assigned yet.
structure Content where
  key : Option Bytes
  value : Option Bytes
  deriving DecidableEq, Repr

def store (setting : Bytes × Bytes) : Content := ⟨some setting.1,some setting.2⟩

/- Program points of add_config, before each of its assignments. -/
inductive Adding where
  | idle
  | key (new : Nat) (key value : Bytes)
  | value (new : Nat) (key value : Bytes)
  | next (new : Nat) (key value : Bytes)
  | conf (new : Nat) (key value : Bytes)
  deriving DecidableEq, Repr

/- Program points of get_config: at the head of the loop, before `return cur->value` and before
`cur = cur->next`. `wild` stands for the read of a field that is not assigned. -/
inductive Walk where
  | idle
  | test (key : Bytes) (cur : Option Nat)
  | found (key : Bytes) (cur : Nat)
  | advance (key : Bytes) (cur : Nat)
  | wild
  deriving DecidableEq, Repr

inductive Event (ι : Type) where
  | added (key value : Bytes)
  | called (r : ι) (key : Bytes)
  | returned (r : ι) (key value : Bytes)
  deriving DecidableEq, Repr

structure State (ι : Type) where
  heap : Heap Content
  conf : Option Nat
  adding : Adding
  walks : ι → Walk
  log : List (Event ι)

def initial : State ι := ⟨fun _ => none,none,.idle,fun _ => .idle,[]⟩

-- safe_malloc does not say what is in `next`.
inductive Act (ι : Type) where
  | addConfig (key value : Bytes) (new : Nat) (next : Option Nat)
  | assign
  | getConfig (r : ι) (key : Bytes)
  | walk (r : ι)
  deriving DecidableEq, Repr

def put (s : State ι) (new : Nat) (node : Node Content) (adding : Adding) : State ι :=
  {s with heap := s.heap.put new (some node), adding := adding}

def assign (s : State ι) : Option (State ι) := match s.adding with
  | .idle => none
  | .key new key value =>
    (s.heap new).map (fun node => put s new ⟨⟨some key,node.item.value⟩,node.next⟩ (.value new key value))
  | .value new key value =>
    (s.heap new).map (fun node => put s new ⟨⟨node.item.key,some value⟩,node.next⟩ (.next new key value))
  | .next new key value =>
    (s.heap new).map (fun node => put s new ⟨node.item,s.conf⟩ (.conf new key value))
  | .conf new key value =>
    some {s with conf := some new, adding := .idle, log := .added key value :: s.log}

def goTo (s : State ι) (r : ι) (walk : Walk) : State ι := {s with walks := Function.update s.walks r walk}

def answer (s : State ι) (r : ι) (key value : Bytes) : State ι :=
  {goTo s r .idle with log := .returned r key value :: s.log}

def walk (s : State ι) (r : ι) : Option (State ι) := match s.walks r with
  | .idle | .wild => none
  | .test key none => some (answer s r key [])
  | .test key (some cur) => match (s.heap cur).bind (fun node => node.item.key) with
    | none => some (goTo s r .wild)
    | some k => some (goTo s r (if k = key then .found key cur else .advance key cur))
  | .found key cur => match (s.heap cur).bind (fun node => node.item.value) with
    | none => some (goTo s r .wild)
    | some value => some (answer s r key value)
  | .advance key cur => match s.heap cur with
    | none => some (goTo s r .wild)
    | some node => some (goTo s r (.test key node.next))

def step (s : State ι) : Act ι → Option (State ι)
  | .addConfig key value new next =>
    if s.adding = .idle ∧ s.heap new = none then
      some (put s new ⟨⟨none,none⟩,next⟩ (.key new key value)) else none
  | .assign => assign s
  | .getConfig r key => if s.walks r = .idle then
      some {goTo s r (.test key s.conf) with log := .called r key :: s.log} else none
  | .walk r => walk s r

def settings : List (Event ι) → Conf
  | [] => []
  | .added key value :: older => addConfig (settings older) key value
  | .called .. :: older | .returned .. :: older => settings older

/- The call of a reader that has not returned, and its answer from the settings at that time. -/
def pending (r : ι) : List (Event ι) → Option (Bytes × Bytes)
  | [] => none
  | .added .. :: older => pending r older
  | .called q key :: older => if q = r then some (key,getConfig (settings older) key) else pending r older
  | .returned q .. :: older => if q = r then none else pending r older

def AtOnce : Event ι → List (Event ι) → Prop
  | .added .., _ => True
  | .called r _, older => pending r older = none
  | .returned r key value, older => pending r older = some (key,value)

abbrev Entries := List (Nat × (Bytes × Bytes))

def Apart (entries : Entries) (new : Nat) : Prop := new ∉ addresses entries

def Writes (h : Heap Content) (conf : Option Nat) (entries : Entries) : Adding → Prop
  | .idle => True
  | .key new .. => Apart entries new ∧ h new ≠ none
  | .value new key _ => Apart entries new ∧ ∃ value next, h new = some ⟨⟨some key,value⟩,next⟩
  | .next new key value => Apart entries new ∧ ∃ next, h new = some ⟨store (key,value),next⟩
  | .conf new key value => Apart entries new ∧ h new = some ⟨store (key,value),conf⟩

def Walks (entries : Entries) (answer : Option (Bytes × Bytes)) : Walk → Prop
  | .idle => answer = none
  | .test key cur => ∃ rest, rest <:+ entries ∧ cur = first rest ∧
      answer = some (key,Config.getConfig (values rest) key)
  | .found key cur => ∃ value rest, (cur,(key,value)) :: rest <:+ entries ∧ answer = some (key,value)
  | .advance key cur => ∃ setting rest, (cur,setting) :: rest <:+ entries ∧
      answer = some (key,Config.getConfig (values rest) key)
  | .wild => False

structure Inv (entries : Entries) (s : State ι) : Prop where
  chain : Chain store s.heap s.conf entries
  settings : values entries = settings s.log
  adding : Writes s.heap s.conf entries s.adding
  walks : ∀ r, Walks entries (pending r s.log) (s.walks r)
  atOnce : History.Every AtOnce s.log

theorem initialInv : Inv [] (initial : State ι) :=
  ⟨rfl,rfl,trivial,fun _ => rfl,trivial⟩

section Steps
variable {entries : Entries} {s t : State ι} {r : ι}

theorem putInv {new : Nat} {node : Node Content} {adding : Adding} (inv : Inv entries s)
    (apart : Apart entries new) (writes : Writes (s.heap.put new (some node)) s.conf entries adding) :
    Inv entries (put s new node adding) where
  chain := chainSame inv.chain (fun _ mem => putOther _ _ (fun same => apart (same ▸ mem)))
  settings := inv.settings
  adding := writes
  walks := inv.walks
  atOnce := inv.atOnce

theorem addConfigInv {key value : Bytes} {new : Nat} {next : Option Nat} (inv : Inv entries s)
    (h : step s (.addConfig key value new next) = some t) : Inv entries t := by
  obtain ⟨⟨-,free⟩,rfl⟩ := Runs.guarded h
  have apart : Apart entries new := fun mem => chainUsed inv.chain new mem free
  exact putInv inv apart ⟨apart,by rw [putSame]; exact Option.some_ne_none _⟩

theorem assignInv (inv : Inv entries s) (h : assign s = some t) :
    ∃ more, entries <:+ more ∧ Inv more t := by
  have writes := inv.adding
  simp only [assign] at h
  split at h
  · contradiction
  all_goals
    rename_i new key value here
    rw [here] at writes
  · obtain ⟨node,-,rfl⟩ := Option.map_eq_some_iff.mp h
    exact ⟨entries,List.suffix_refl _,putInv inv writes.1 ⟨writes.1,_,_,putSame _ _ _⟩⟩
  · obtain ⟨apart,old,next,node⟩ := writes
    rw [node] at h
    obtain rfl := (Option.some.inj h).symm
    exact ⟨entries,List.suffix_refl _,putInv inv apart ⟨apart,_,putSame _ _ _⟩⟩
  · obtain ⟨apart,next,node⟩ := writes
    rw [node] at h
    obtain rfl := (Option.some.inj h).symm
    exact ⟨entries,List.suffix_refl _,putInv inv apart ⟨apart,putSame _ _ _⟩⟩
  · obtain rfl := (Option.some.inj h).symm
    refine ⟨(new,(key,value)) :: entries,List.suffix_cons _ _,chainCons inv.chain writes.2,?_,trivial,fun r => ?_,trivial,
      inv.atOnce⟩
    · exact congrArg ((key,value) :: ·) inv.settings
    · -- the readers on their way do not see the new node
      have before := inv.walks r
      show Walks _ (pending r s.log) (s.walks r)
      cases at_ : s.walks r with
      | idle => rw [at_] at before; exact before
      | test k cur =>
        rw [at_] at before
        obtain ⟨rest,suffix,others⟩ := before
        exact ⟨rest,suffix.trans (List.suffix_cons _ _),others⟩
      | found k cur =>
        rw [at_] at before
        obtain ⟨v,rest,suffix,others⟩ := before
        exact ⟨v,rest,suffix.trans (List.suffix_cons _ _),others⟩
      | advance k cur =>
        rw [at_] at before
        obtain ⟨setting,rest,suffix,others⟩ := before
        exact ⟨setting,rest,suffix.trans (List.suffix_cons _ _),others⟩
      | wild => rw [at_] at before; exact before

theorem movedInv {walk : Walk} {log : List (Event ι)} (inv : Inv entries s)
    (same : settings log = settings s.log) (others : ∀ q, q ≠ r → pending q log = pending q s.log)
    (walks : Walks entries (pending r log) walk) (atOnce : History.Every AtOnce log) :
    Inv entries {s with walks := Function.update s.walks r walk, log := log} := by
  refine ⟨inv.chain,inv.settings.trans same.symm,inv.adding,fun q => ?_,atOnce⟩
  show Walks entries (pending q log) (Function.update s.walks r walk q)
  by_cases own : q = r
  · subst q
    rw [Function.update_self]
    exact walks
  · rw [Function.update_of_ne own,others q own]
    exact inv.walks q

theorem goToInv {walk : Walk} (inv : Inv entries s) (walks : Walks entries (pending r s.log) walk) :
    Inv entries (goTo s r walk) :=
  movedInv inv rfl (fun _ _ => rfl) walks inv.atOnce

theorem getConfigInv {key : Bytes} (inv : Inv entries s) (h : step s (.getConfig r key) = some t) :
    Inv entries t := by
  obtain ⟨idle,rfl⟩ := Runs.guarded h
  have none := inv.walks r
  rw [idle] at none
  refine movedInv inv rfl (fun _ other => if_neg (Ne.symm other)) ?_ ⟨none,inv.atOnce⟩
  rw [pending,if_pos rfl]
  exact ⟨entries,List.suffix_refl _,chainFirst inv.chain,by rw [inv.settings]⟩

theorem answerInv {key value : Bytes} (inv : Inv entries s)
    (answered : pending r s.log = some (key,value)) : Inv entries (answer s r key value) :=
  movedInv inv rfl (fun _ other => if_neg (Ne.symm other)) (if_pos rfl) ⟨answered,inv.atOnce⟩

theorem nodeRead {cur : Nat} {setting : Bytes × Bytes} {rest : Entries} (inv : Inv entries s)
    (suffix : (cur,setting) :: rest <:+ entries) : s.heap cur = some ⟨store setting,first rest⟩ :=
  behindHead (chainSuffix inv.chain suffix).2

theorem walkInv (inv : Inv entries s) (h : walk s r = some t) : Inv entries t := by
  have walks := inv.walks r
  simp only [walk] at h
  split at h
  · contradiction
  · contradiction
  · rename_i key here
    rw [here] at walks
    obtain ⟨rest,-,empty,answered⟩ := walks
    obtain rfl := (Option.some.inj h).symm
    cases rest with
    | nil => exact answerInv inv answered
    | cons entry rest => contradiction
  · rename_i key cur here
    rw [here] at walks
    obtain ⟨rest,suffix,at_,answered⟩ := walks
    cases rest with
    | nil => contradiction
    | cons entry rest =>
      obtain ⟨a,k,value⟩ := entry
      obtain rfl := Option.some.inj at_
      rw [nodeRead inv suffix] at h
      obtain rfl := (Option.some.inj h).symm
      split
      · rename_i same
        obtain rfl : k = key := same
        refine goToInv inv ⟨value,rest,suffix,answered.trans ?_⟩
        simp [values,Config.getConfig]
      · rename_i other
        refine goToInv inv ⟨(k,value),rest,suffix,answered.trans ?_⟩
        exact congrArg (fun v => some (key,v)) (if_neg other)
  · rename_i key cur here
    rw [here] at walks
    obtain ⟨value,rest,suffix,answered⟩ := walks
    rw [nodeRead inv suffix] at h
    obtain rfl := (Option.some.inj h).symm
    exact answerInv inv answered
  · rename_i key cur here
    rw [here] at walks
    obtain ⟨setting,rest,suffix,answered⟩ := walks
    rw [nodeRead inv suffix] at h
    obtain rfl := (Option.some.inj h).symm
    exact goToInv inv ⟨rest,(List.suffix_cons _ _).trans suffix,rfl,answered⟩

theorem stepInv {a : Act ι} (inv : Inv entries s) (h : step s a = some t) :
    ∃ more, entries <:+ more ∧ Inv more t := by
  cases a with
  | addConfig key value new next => exact ⟨entries,List.suffix_refl _,addConfigInv inv h⟩
  | assign => exact assignInv inv h
  | getConfig r key => exact ⟨entries,List.suffix_refl _,getConfigInv inv h⟩
  | walk r => exact ⟨entries,List.suffix_refl _,walkInv inv h⟩

theorem stepKeeps {a : Act ι} (inv : ∃ entries, Inv entries s) (h : step s a = some t) :
    ∃ entries, Inv entries t := by
  obtain ⟨entries,inv⟩ := inv
  obtain ⟨more,-,later⟩ := stepInv inv h
  exact ⟨more,later⟩

theorem runInv {acts : List (Act ι)} (run : Runs.exec step initial acts = some s) :
    ∃ entries, Inv entries s :=
  Runs.invariant (fun _ _ _ => stepKeeps) ⟨[],initialInv⟩ run

theorem pendingFrom {log : List (Event ι)} {key value : Bytes} (asked : pending r log = some (key,value)) :
    ∃ between older, log = between ++ .called r key :: older ∧ (∀ k, .called r k ∉ between) ∧
      (∀ k v, .returned r k v ∉ between) ∧ value = Config.getConfig (Lookups.settings older) key := by
  induction log with
  | nil => contradiction
  | cons e log ih =>
    have skip (later : pending r log = some (key,value)) (other : ∀ k, e ≠ .called r k)
        (stays : ∀ k v, e ≠ .returned r k v) : ∃ between older, e :: log = between ++ .called r key :: older ∧
          (∀ k, .called r k ∉ between) ∧ (∀ k v, .returned r k v ∉ between) ∧
          value = Config.getConfig (Lookups.settings older) key := by
      obtain ⟨between,older,rfl,calls,returns,same⟩ := ih later
      exact ⟨e :: between,older,rfl,fun k => List.not_mem_cons_of_ne_of_not_mem (Ne.symm (other k)) (calls k),
        fun k v => List.not_mem_cons_of_ne_of_not_mem (Ne.symm (stays k v)) (returns k v),same⟩
    cases e with
    | added k v => exact skip asked (by simp) (by simp)
    | called q k =>
      rw [pending] at asked
      split at asked
      · rename_i own
        subst q
        obtain ⟨rfl,rfl⟩ := Prod.mk.inj (Option.some.inj asked)
        exact ⟨[],log,rfl,by simp,by simp,rfl⟩
      · rename_i other
        exact skip asked (fun k same => other (Event.called.inj same).1) (by simp)
    | returned q k v =>
      rw [pending] at asked
      split at asked
      · contradiction
      · rename_i other
        exact skip asked (by simp) (fun k v same => other (Event.returned.inj same).1)

end Steps

/-- A lookup never reads what is not assigned, and returns what the settings of the moment it was
called give its key, whatever is added meanwhile. -/
theorem lookupsAtomic (acts : List (Act ι)) (s : State ι) (run : Runs.exec step initial acts = some s) (r : ι) :
    s.walks r ≠ .wild ∧
    ∀ newer older key value, s.log = newer ++ .returned r key value :: older →
      ∃ between before, older = between ++ .called r key :: before ∧ (∀ k, .called r k ∉ between) ∧
        (∀ k v, .returned r k v ∉ between) ∧ value = Config.getConfig (settings before) key := by
  obtain ⟨entries,inv⟩ := runInv run
  refine ⟨fun wild => ?_,fun newer older key value same => ?_⟩
  · have walks := inv.walks r
    rw [wild] at walks
    exact walks
  · have all := inv.atOnce
    rw [same] at all
    exact pendingFrom (History.everySplit all)

section Waiting
variable {entries : Entries} {s t : State ι} {r : ι}

def nodes : Nat → Heap Content → Option Nat → Nat
  | limit + 1, h, some cur => match h cur with
    | some node => nodes limit h node.next + 1
    | none => 0
  | _, _, _ => 0

def stepsLeft (s : State ι) : Walk → Nat
  | .idle | .wild => 0
  | .test _ cur => 2 * nodes (settings s.log).length s.heap cur + 1
  | .found .. => 1
  | .advance _ cur => 2 * nodes (settings s.log).length s.heap (some cur)

theorem nodesCounted {h : Heap Content} {p : Option Nat} {rest : Entries} {limit : Nat}
    (chain : Chain store h p rest) (enough : rest.length ≤ limit) : nodes limit h p = rest.length := by
  induction rest generalizing p limit with
  | nil =>
    obtain rfl := chain
    cases limit <;> rfl
  | cons entry rest ih =>
    obtain ⟨n,rfl⟩ : ∃ n, limit = n + 1 := ⟨limit - 1,by rw [List.length_cons] at enough; omega⟩
    rw [chain.1,nodes,behindHead chain.2]
    exact congrArg Nat.succ (ih (chainBehind chain.2) (Nat.le_of_succ_le_succ enough))

theorem nodesBefore (inv : Inv entries s) {rest : Entries} (suffix : rest <:+ entries) :
    nodes (settings s.log).length s.heap (first rest) = rest.length := by
  refine nodesCounted (chainSuffix inv.chain suffix) ?_
  rw [← inv.settings,values,List.length_map]
  exact suffix.length_le

theorem testLeft (inv : Inv entries s) {rest : Entries} (suffix : rest <:+ entries) (key : Bytes) :
    stepsLeft s (.test key (first rest)) = 2 * rest.length + 1 := by
  rw [stepsLeft,nodesBefore inv suffix]

theorem advanceLeft (inv : Inv entries s) {cur : Nat} {setting : Bytes × Bytes} {rest : Entries}
    (suffix : (cur,setting) :: rest <:+ entries) (key : Bytes) :
    stepsLeft s (.advance key cur) = 2 * (rest.length + 1) := by
  have counted := nodesBefore inv suffix
  rw [stepsLeft,show some cur = first ((cur,setting) :: rest) from rfl,counted,List.length_cons]

theorem leftSame {more : Entries} {w : Walk} {answer : Option (Bytes × Bytes)} (inv : Inv entries s)
    (later : Inv more t) (grown : entries <:+ more) (walks : Walks entries answer w) :
    stepsLeft t w = stepsLeft s w := by
  cases w with
  | idle => rfl
  | wild => rfl
  | found key cur => rfl
  | test key cur =>
    obtain ⟨rest,suffix,rfl,-⟩ := walks
    rw [testLeft inv suffix,testLeft later (suffix.trans grown)]
  | advance key cur =>
    obtain ⟨setting,rest,suffix,-⟩ := walks
    rw [advanceLeft inv suffix,advanceLeft later (suffix.trans grown)]

theorem goToLeft (w : Walk) : stepsLeft (goTo s r w) ((goTo s r w).walks r) = stepsLeft s w := by
  rw [goTo]
  show stepsLeft _ (Function.update s.walks r w r) = _
  rw [Function.update_self]
  rfl

theorem answerLeft (key value : Bytes) :
    stepsLeft (answer s r key value) ((answer s r key value).walks r) = 0 := by
  rw [answer,goTo]
  show stepsLeft _ (Function.update s.walks r .idle r) = 0
  rw [Function.update_self]
  rfl

theorem walkLeft (inv : Inv entries s) (h : walk s r = some t) :
    stepsLeft t (t.walks r) < stepsLeft s (s.walks r) := by
  have walks := inv.walks r
  simp only [walk] at h
  split at h
  · contradiction
  · contradiction
  all_goals
    rename_i here
    rw [here] at walks
  · obtain rfl := (Option.some.inj h).symm
    rw [answerLeft,here]
    exact Nat.succ_pos _
  · obtain ⟨rest,suffix,at_,-⟩ := walks
    cases rest with
    | nil => contradiction
    | cons entry rest =>
      obtain ⟨a,k,value⟩ := entry
      obtain rfl := Option.some.inj at_
      rw [nodeRead inv suffix] at h
      obtain rfl := (Option.some.inj h).symm
      rw [goToLeft,here,at_,testLeft inv suffix,List.length_cons]
      split
      · rw [stepsLeft]; omega
      · rw [advanceLeft inv suffix]; omega
  · obtain ⟨value,rest,suffix,-⟩ := walks
    rw [nodeRead inv suffix] at h
    obtain rfl := (Option.some.inj h).symm
    rw [answerLeft,here]
    exact Nat.one_pos
  · obtain ⟨setting,rest,suffix,-⟩ := walks
    rw [nodeRead inv suffix] at h
    obtain rfl := (Option.some.inj h).symm
    rw [goToLeft,here,advanceLeft inv suffix,testLeft inv ((List.suffix_cons _ _).trans suffix)]
    omega

omit [DecidableEq ι] in
theorem assignWalks (h : assign s = some t) : t.walks = s.walks := by
  simp only [assign] at h
  split at h
  · contradiction
  · obtain ⟨node,-,rfl⟩ := Option.map_eq_some_iff.mp h; rfl
  · obtain ⟨node,-,rfl⟩ := Option.map_eq_some_iff.mp h; rfl
  · obtain ⟨node,-,rfl⟩ := Option.map_eq_some_iff.mp h; rfl
  · obtain rfl := (Option.some.inj h).symm; rfl

theorem walkMoves {q : ι} (h : walk s q = some t) : ∃ w, t.walks = Function.update s.walks q w := by
  simp only [walk] at h
  split at h <;> try contradiction
  · cases Option.some.inj h; exact ⟨_,rfl⟩
  all_goals split at h <;> cases Option.some.inj h <;> exact ⟨_,rfl⟩

theorem othersLeft {a : Act ι} (inv : Inv entries s) (busy : s.walks r ≠ .idle) (other : a ≠ .walk r)
    (h : step s a = some t) : stepsLeft t (t.walks r) = stepsLeft s (s.walks r) := by
  obtain ⟨more,grown,later⟩ := stepInv inv h
  have same : t.walks r = s.walks r := by
    cases a with
    | addConfig key value new next => obtain ⟨-,rfl⟩ := Runs.guarded h; rfl
    | assign => rw [assignWalks h]
    | getConfig q key =>
      obtain ⟨idle,rfl⟩ := Runs.guarded h
      exact Function.update_of_ne (fun own : r = q => busy (own ▸ idle)) _ _
    | walk q =>
      obtain ⟨w,moved⟩ := walkMoves h
      rw [moved]
      exact Function.update_of_ne (fun own : r = q => other (own ▸ rfl)) _ _
  rw [same]
  exact leftSame inv later grown (inv.walks r)

theorem walkEnabled (inv : Inv entries s) (busy : s.walks r ≠ .idle) : ∃ t, walk s r = some t := by
  have walks := inv.walks r
  cases here : s.walks r with
  | idle => exact absurd here busy
  | wild => rw [here] at walks; exact walks.elim
  | test key cur =>
    cases cur with
    | none => exact ⟨_,by rw [walk,here]⟩
    | some cur =>
      simp only [walk,here]
      split <;> exact ⟨_,rfl⟩
  | found key cur =>
    simp only [walk,here]
    split <;> exact ⟨_,rfl⟩
  | advance key cur =>
    simp only [walk,here]
    split <;> exact ⟨_,rfl⟩

theorem busyLeft (inv : Inv entries s) (busy : s.walks r ≠ .idle) : 0 < stepsLeft s (s.walks r) := by
  obtain ⟨t,h⟩ := walkEnabled inv busy
  exact Nat.zero_lt_of_lt (walkLeft inv h)

end Waiting

/-- A lookup waits for nobody: until it returns its next step can be taken, and it returns after
at most two steps for each setting there is when it is called, and one. -/
theorem lookupWaitFree (acts : List (Act ι)) (s : State ι) (run : Runs.exec step initial acts = some s)
    (r : ι) (key : Bytes) (called : State ι) (call : step s (.getConfig r key) = some called)
    (later : List (Act ι)) (t : State ι) (runs : Runs.exec step called later = some t)
    (busy : Runs.Always step (fun s => s.walks r ≠ .idle) called later) :
    later.count (.walk r) ≤ 2 * (settings s.log).length ∧ ∃ u, step t (.walk r) = some u := by
  obtain ⟨entries,inv⟩ := runInv run
  have first := getConfigInv inv call
  have at_ : called.walks r = .test key (Linked.first entries) := by
    obtain ⟨-,rfl⟩ := Runs.guarded call
    rw [← chainFirst inv.chain]
    exact Function.update_self r _ _
  have steps : stepsLeft called (called.walks r) = 2 * (settings s.log).length + 1 := by
    rw [at_,testLeft first (List.suffix_refl _),← inv.settings,values,List.length_map]
  have unanswered : Runs.Meets step (fun s _ => s.walks r ≠ .idle) called later := Runs.alwaysBefore busy
  have counted := Runs.countedDown (fun s => stepsLeft s (s.walks r)) (fun a => decide (a = .walk r))
    (I := fun s => ∃ entries, Inv entries s)
    (fun _ _ _ inv _ h => stepKeeps inv h)
    (by
      rintro s a t ⟨entries,inv⟩ - mine h
      obtain rfl := of_decide_eq_true mine
      exact walkLeft inv h)
    (by
      rintro s a t ⟨entries,inv⟩ busy other h
      exact Nat.le_of_eq (othersLeft inv busy (of_decide_eq_false other) h))
    ⟨entries,first⟩ unanswered runs
  obtain ⟨after,last⟩ := Runs.invariant (fun _ _ _ => stepKeeps) ⟨entries,first⟩ runs
  have open_ := Runs.alwaysLast busy runs
  have left := busyLeft last open_
  have same : later.count (.walk r) = later.countP (fun a => decide (a = .walk r)) :=
    List.countP_congr (fun a _ => by simp)
  refine ⟨?_,walkEnabled last open_⟩
  omega

/- Two settings are there. A reload gives the first one's key a new value while a thread is on its
way to the second, and another thread asks in time for the new one. -/
def reloading : List (Act Bool) :=
  [.addConfig (ascii "a") (ascii "1") 0 none,.assign,.assign,.assign,.assign,
    .addConfig (ascii "b") (ascii "2") 1 (some 7),.assign,.assign,.assign,.assign,
    .getConfig false (ascii "a"),.walk false,.addConfig (ascii "a") (ascii "3") 2 none,.assign,.assign,
    .walk false,.assign,.assign,.getConfig true (ascii "a"),.walk true,.walk true,.walk false,.walk false]

theorem lookupsAtomicReloading : ∃ s, Runs.exec step initial reloading = some s ∧
    s.log.take 2 = [.returned false (ascii "a") (ascii "1"),.returned true (ascii "a") (ascii "3")] ∧
    ∀ r, s.walks r ≠ .wild ∧
      ∀ newer older key value, s.log = newer ++ .returned r key value :: older →
        ∃ between before, older = between ++ .called r key :: before ∧ (∀ k, .called r k ∉ between) ∧
          (∀ k v, .returned r k v ∉ between) ∧ value = Config.getConfig (settings before) key := by
  have seen : (Runs.exec step initial reloading).map (fun s => s.log.take 2) =
      some [.returned false (ascii "a") (ascii "1"),.returned true (ascii "a") (ascii "3")] := by
    decide +kernel
  obtain ⟨s,run,log⟩ := Option.map_eq_some_iff.mp seen
  exact ⟨s,run,log,lookupsAtomic reloading s run⟩

theorem lookupWaitFreeReloading : ∃ s called t, Runs.exec step initial (reloading.take 10) = some s ∧
    step s (.getConfig false (ascii "a")) = some called ∧
    Runs.exec step called ((reloading.drop 11).take 11) = some t ∧ (settings s.log).length = 2 ∧
    ((reloading.drop 11).take 11).count (.walk false) ≤ 2 * (settings s.log).length ∧
    ∃ u, step t (.walk false) = some u := by
  have first : (Runs.exec step initial (reloading.take 10)).map (fun s => (settings s.log).length) =
      some 2 := by decide +kernel
  obtain ⟨s,run,count⟩ := Option.map_eq_some_iff.mp first
  have busy : ((Runs.exec step initial (reloading.take 10)).bind
      (fun s => step s (.getConfig false (ascii "a")))).any (fun called =>
        (Runs.exec step called ((reloading.drop 11).take 11)).isSome &&
        decide (Runs.Always step (fun s => s.walks false ≠ .idle) called ((reloading.drop 11).take 11))) =
      true := by decide +kernel
  rw [run,Option.bind_some,Option.any_eq_true] at busy
  obtain ⟨called,call,busy⟩ := busy
  obtain ⟨ran,busy⟩ := Bool.and_eq_true_iff.mp busy
  obtain ⟨t,runs⟩ := Option.isSome_iff_exists.mp ran
  exact ⟨s,called,t,run,call,runs,count,lookupWaitFree _ s run false _ called call _ t runs
    (of_decide_eq_true busy)⟩

end RfidStation.Lookups
