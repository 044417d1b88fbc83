import Mathlib.Data.List.Chain

/-! An action that is taken when more than `gap` has passed since it was last taken: when it is,
for any sequence of times at which it is asked for. -/
namespace Throttle

def turn (gap last now : Int) : Int := if now - last > gap then now else last

def firings (gap : Int) : Int → List Int → List Int
  | _, [] => []
  | last, now :: rest => if now - last > gap then now :: firings gap now rest else firings gap last rest

def lastOf (gap last : Int) (times : List Int) : Int := times.foldl (turn gap) last

/- A clock that is not set back, asked at least every `longest`. -/
def Rounds (longest : Int) (times : List Int) : Prop := times.IsChain (fun a b => a ≤ b ∧ b - a ≤ longest)

instance (longest : Int) (times : List Int) : Decidable (Rounds longest times) :=
  inferInstanceAs (Decidable (times.IsChain _))

def Regular (gap longest : Int) (fired : List Int) : Prop :=
  fired.IsChain (fun a b => gap < b - a ∧ b - a ≤ gap + longest)

variable {gap longest last prev : Int} {times : List Int}

theorem firingsRegular (some_gap : 0 ≤ gap) (since : prev - last ≤ gap)
    (rounds : Rounds longest (prev :: times)) : Regular gap longest (last :: firings gap last times) := by
  induction times generalizing last prev with
  | nil => exact List.isChain_singleton last
  | cons now rest ih =>
    obtain ⟨⟨-,soon⟩,later⟩ := List.isChain_cons_cons.mp rounds
    rw [firings]
    split
    · rename_i due
      have regular : Regular gap longest (now :: firings gap now rest) := ih (by omega) later
      exact List.isChain_cons_cons.mpr ⟨⟨due,by omega⟩,regular⟩
    · exact ih (by omega) later

theorem firingsAppend (gap last : Int) (before after : List Int) :
    firings gap last (before ++ after) =
      firings gap last before ++ firings gap (lastOf gap last before) after := by
  induction before generalizing last with
  | nil => rfl
  | cons now rest ih =>
    rw [List.cons_append,firings,firings,lastOf,List.foldl_cons,turn]
    split
    · rw [ih]; rfl
    · exact ih last

theorem firingsLast (gap last : Int) (times : List Int) :
    (last :: firings gap last times).getLast? = some (lastOf gap last times) := by
  induction times generalizing last with
  | nil => rfl
  | cons now rest ih =>
    rw [firings,lastOf,List.foldl_cons,turn]
    split
    · rw [List.getLast?_cons_cons]; exact ih now
    · exact ih last

theorem lastOfLately (some_gap : 0 ≤ gap) (last now : Int) (times : List Int) :
    now - lastOf gap last (times ++ [now]) ≤ gap := by
  rw [lastOf,List.foldl_append,List.foldl_cons,List.foldl_nil,turn]
  split <;> omega

end Throttle
