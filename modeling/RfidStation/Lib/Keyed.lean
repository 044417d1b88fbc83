import Mathlib.Data.List.Perm.Basic
import Mathlib.Data.List.Nodup

/-! Sequences of entries that carry a key, seen key by key. -/
namespace Keyed
variable {κ α : Type} [DecidableEq κ]

def ofKey (key : α → κ) (k : κ) (l : List α) : List α := l.filter (fun x => key x = k)

@[simp] theorem ofKeyNil (key : α → κ) (k : κ) : ofKey key k [] = [] := rfl

@[simp] theorem ofKeyAppend (key : α → κ) (k : κ) (xs ys : List α) :
    ofKey key k (xs ++ ys) = ofKey key k xs ++ ofKey key k ys := by
  simp [ofKey]

theorem ofKeySame {key : α → κ} {k : κ} {l : List α} (same : ∀ x ∈ l, key x = k) :
    ofKey key k l = l :=
  List.filter_eq_self.mpr (fun x hx => by simpa using same x hx)

theorem ofKeyOther {key : α → κ} {k : κ} {l : List α} (other : ∀ x ∈ l, key x ≠ k) :
    ofKey key k l = [] :=
  List.filter_eq_nil_iff.mpr (fun x hx => by simpa using other x hx)

theorem ofKeyFilterNe {key : α → κ} {j k : κ} (different : j ≠ k) (l : List α) :
    ofKey key j (l.filter (fun x => ¬ key x = k)) = ofKey key j l := by
  rw [ofKey,List.filter_filter]
  apply List.filter_congr
  intro x _
  by_cases here : key x = j <;> simp [here,different]

theorem permByKeys (key : α → κ) {ks : List κ} (distinct : ks.Nodup) {l : List α}
    (covered : ∀ x ∈ l, key x ∈ ks) : l.Perm (ks.flatMap (fun k => ofKey key k l)) := by
  induction ks generalizing l with
  | nil =>
    have empty : l = [] := by
      cases l with
      | nil => rfl
      | cons x rest => simpa using covered x List.mem_cons_self
    subst l; rfl
  | cons k ks ih =>
    obtain ⟨fresh,distinct⟩ := List.nodup_cons.mp distinct
    let others := l.filter (fun x => ¬ key x = k)
    have split : (ofKey key k l ++ others).Perm l := by
      simpa [ofKey,others] using List.filter_append_perm (fun x => decide (key x = k)) l
    have rest : others.Perm (ks.flatMap (fun j => ofKey key j others)) := by
      refine ih distinct (fun x hx => ?_)
      obtain ⟨inside,different⟩ := List.mem_filter.mp hx
      exact (List.mem_cons.mp (covered x inside)).resolve_left (by simpa using different)
    have same : ks.flatMap (fun j => ofKey key j others) = ks.flatMap (fun j => ofKey key j l) := by
      apply List.flatMap_congr
      intro j hj
      exact ofKeyFilterNe (by rintro rfl; exact fresh hj) l
    rw [List.flatMap_cons,← same]
    exact split.symm.trans (rest.append_left _)

end Keyed
