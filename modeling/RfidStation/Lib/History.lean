import Mathlib.Data.List.Basic

/-! Histories of events, the newest first: what happened since the last event of a kind, and
properties of each event at its time. -/
namespace History
universe u
variable {α : Type u}

def since (p q : α → Bool) : List α → Bool
  | [] => false
  | e :: older => p e || (!q e && since p q older)

def Every (good : α → List α → Prop) : List α → Prop
  | [] => True
  | e :: older => good e older ∧ Every good older

variable {p q : α → Bool} {good : α → List α → Prop}

theorem sinceSkip {e : α} (other : p e = false) (stays : q e = false) (older : List α) :
    since p q (e :: older) = since p q older := by
  rw [since,other,stays]; simp

theorem everySplit {newer older : List α} {e : α} (all : Every good (newer ++ e :: older)) :
    good e older := by
  induction newer with
  | nil => exact all.1
  | cons first rest ih => exact ih all.2

theorem sinceSplit {between older : List α} {e : α} (last : q e = true)
    (found : since p q (between ++ e :: older) = true) : p e = true ∨ ∃ x ∈ between, p x = true := by
  induction between with
  | nil =>
    rw [List.nil_append,since,last] at found
    exact .inl (by simpa using found)
  | cons first rest ih =>
    rw [List.cons_append,since,Bool.or_eq_true,Bool.and_eq_true] at found
    rcases found with here | ⟨-,later⟩
    · exact .inr ⟨first,List.mem_cons_self,here⟩
    · refine (ih later).imp_right ?_
      rintro ⟨x,mem,hit⟩
      exact ⟨x,List.mem_cons_of_mem first mem,hit⟩

theorem sinceNone {newer older : List α} (quiet : since p q (newer ++ older) = false)
    (open_ : ∀ x ∈ newer, q x = false) : ∀ x ∈ newer, p x = false := by
  induction newer with
  | nil => simp
  | cons first rest ih =>
    have step := open_ first List.mem_cons_self
    rw [List.cons_append,since,step] at quiet
    simp only [Bool.not_false,Bool.true_and,Bool.or_eq_false_iff] at quiet
    intro x mem
    rcases List.mem_cons.mp mem with rfl | old
    · exact quiet.1
    · exact ih quiet.2 (fun y inside => open_ y (List.mem_cons_of_mem _ inside)) x old

end History
