import Mathlib.Data.List.TakeWhile

/-! The maximal runs of a list's elements with a property, and the same runs as a reader
from left to right completes them. -/
namespace Maximal
variable {α : Type} (holds : α → Bool)

def runs (s : List α) : List (List α) := (s.splitOnP (fun c => !holds c)).filter (fun run => !run.isEmpty)

def flush (run : List α) : List (List α) := if run.isEmpty then [] else [run]

-- `run` is read already, and the next element may still belong to it.
def runsFrom : List α → List α → List (List α)
  | run, [] => flush run
  | run, c :: rest => if holds c then runsFrom (run ++ [c]) rest else flush run ++ runsFrom [] rest

variable {holds}

theorem runsFromSplit (run s : List α) : runsFrom holds run s =
    ((s.splitOnP (fun c => !holds c)).modifyHead (run ++ ·)).filter (fun part => !part.isEmpty) := by
  induction s generalizing run with
  | nil => cases run <;> simp [runsFrom,flush]
  | cons c rest ih =>
    rw [runsFrom,List.splitOnP_cons_eq_if_modifyHead]
    obtain ⟨part,more,shape⟩ := List.exists_cons_of_ne_nil (List.splitOnP_ne_nil (fun c => !holds c) rest)
    cases inside : holds c with
    | true =>
      rw [if_pos rfl,ih,shape]
      simp
    | false =>
      rw [if_neg (by decide),ih,shape]
      cases run <;> simp [flush]

theorem runsFromEmpty (s : List α) : runsFrom holds [] s = runs holds s := by
  rw [runsFromSplit,runs]
  cases s.splitOnP (fun c => !holds c) <;> rfl

theorem runGoesOn {run : List α} (begun : run ≠ []) (s : List α) :
    ∃ more, run ++ more ∈ runsFrom holds run s := by
  induction s generalizing run with
  | nil =>
    refine ⟨[],?_⟩
    cases run with
    | nil => contradiction
    | cons b rest => simp [runsFrom,flush]
  | cons c rest ih =>
    rw [runsFrom]
    split
    · have begun' : run ++ [c] ≠ [] := List.append_ne_nil_of_right_ne_nil run (List.cons_ne_nil c [])
      obtain ⟨more,mem⟩ := ih begun'
      exact ⟨c :: more,by simpa using mem⟩
    · refine ⟨[],List.mem_append_left _ ?_⟩
      cases run with
      | nil => contradiction
      | cons b rest => simp [flush]

end Maximal
