import Mathlib.Data.List.Basic

/-! A bus with a chip select line. What is transferred between a falling and a rising edge of
the line is one window; setting the line to the level that it has is no edge. -/
namespace ChipSelect
variable {τ : Type}

inductive Move (τ : Type) where
  | select
  | deselect
  | transfer (x : τ)
  deriving DecidableEq, Repr

structure Bus (τ : Type) where
  high : Bool
  window : List τ
  windows : List (List τ)
  stray : List τ
  deriving DecidableEq, Repr

def Bus.move (bus : Bus τ) : Move τ → Bus τ
  | .select => if bus.high then {bus with high := false, window := []} else bus
  | .deselect => if bus.high then bus
      else {bus with high := true, window := [], windows := bus.windows ++ [bus.window]}
  | .transfer x => if bus.high then {bus with stray := bus.stray ++ [x]}
      else {bus with window := bus.window ++ [x]}

-- A transaction may set the line to each level more than once.
def moves (selects deselects : Nat) (xs : List τ) : List (Move τ) :=
  List.replicate selects .select ++ xs.map .transfer ++ List.replicate deselects .deselect

structure Settled (past : List (List τ)) (bus : Bus τ) : Prop where
  window : bus.window = []
  windows : bus.windows = past
  stray : bus.stray = []

/- In the transaction `xs`, with the moves that it still has to make. -/
inductive Phase (past : List (List τ)) (xs : List τ) : Bus τ → List (Move τ) → Prop where
  | opening {bus} (a b : Nat) (settled : Settled past bus) : Phase past xs bus (moves (a + 1) (b + 1) xs)
  | within {bus} (b : Nat) (rest : List τ) (low : bus.high = false) (split : xs = bus.window ++ rest)
      (windows : bus.windows = past) (stray : bus.stray = []) :
      Phase past xs bus (moves 0 (b + 1) rest)
  | closing {bus} (b : Nat) (high : bus.high = true) (settled : Settled (past ++ [xs]) bus) :
      Phase past xs bus (List.replicate b .deselect)

variable {past : List (List τ)} {xs : List τ} {bus : Bus τ} {rest : List (Move τ)}

theorem selectPhase (settled : Settled past bus) (a b : Nat) :
    Phase past xs (bus.move .select) (moves a (b + 1) xs) := by
  have low : (bus.move .select).high = false := by
    cases high : bus.high <;> simp [Bus.move,high]
  have settled : Settled past (bus.move .select) := by
    obtain ⟨window,windows,stray⟩ := settled
    cases high : bus.high <;> constructor <;> simp [Bus.move,high,window,windows,stray]
  cases a with
  | zero => exact .within b xs low (by rw [settled.window]; rfl) settled.windows settled.stray
  | succ a => exact .opening a b settled

theorem withinPhase (b : Nat) {todo : List τ} {m : Move τ} (low : bus.high = false)
    (split : xs = bus.window ++ todo) (windows : bus.windows = past) (stray : bus.stray = [])
    (next : moves 0 (b + 1) todo = m :: rest) : Phase past xs (bus.move m) rest := by
  cases todo with
  | nil =>
    obtain ⟨rfl,rfl⟩ := List.cons.inj next
    have moved : bus.move .deselect =
        {bus with high := true, window := [], windows := bus.windows ++ [bus.window]} := by
      simp [Bus.move,low]
    rw [moved]
    refine .closing b rfl ⟨rfl,?_,stray⟩
    rw [windows,split,List.append_nil]
  | cons x todo =>
    obtain ⟨rfl,rfl⟩ := List.cons.inj next
    have moved : bus.move (.transfer x) = {bus with window := bus.window ++ [x]} := by
      simp [Bus.move,low]
    rw [moved]
    refine .within b todo low ?_ windows stray
    rw [split,List.append_assoc]
    rfl

theorem movePhase {moved : List (Move τ)} {m : Move τ} (phase : Phase past xs bus moved)
    (next : moved = m :: rest) : Phase past xs (bus.move m) rest := by
  cases phase with
  | opening a b settled =>
    obtain ⟨rfl,rfl⟩ := List.cons.inj next
    exact selectPhase settled a b
  | within b todo low split windows stray => exact withinPhase b low split windows stray next
  | closing b high settled =>
    cases b with
    | zero => cases next
    | succ b =>
      obtain ⟨rfl,rfl⟩ := List.cons.inj next
      have same : bus.move .deselect = bus := if_pos high
      rw [same]
      exact .closing b high settled

theorem phaseDone (phase : Phase past xs bus []) : Settled (past ++ [xs]) bus := by
  generalize nothing : ([] : List (Move τ)) = todo at phase
  cases phase with
  | opening a b settled => cases nothing
  | within b rest low split windows stray =>
    cases rest with
    | nil => cases nothing
    | cons x rest => cases nothing
  | closing b high settled => exact settled

theorem phaseOpen {todo : List (Move τ)} (phase : Phase past xs bus todo) (low : bus.high = false) :
    bus.windows = past := by
  cases phase with
  | opening a b settled => exact settled.windows
  | within b rest low split windows stray => exact windows
  | closing b high settled => simp [low] at high

theorem phaseWindows {todo : List (Move τ)} (phase : Phase past xs bus todo) :
    bus.stray = [] ∧ ∃ later, past ++ [xs] = bus.windows ++ later ∧
      (bus.window = [] ∨ ∃ w more, later = w :: more ∧ bus.window <+: w) := by
  cases phase with
  | opening a b settled => exact ⟨settled.stray,[xs],by rw [settled.windows],.inl settled.window⟩
  | within b rest low split windows stray =>
    exact ⟨stray,[xs],by rw [windows],.inr ⟨xs,[],rfl,rest,split.symm⟩⟩
  | closing b high settled =>
    exact ⟨settled.stray,[],by rw [settled.windows,List.append_nil],.inl settled.window⟩

end ChipSelect
