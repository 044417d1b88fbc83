import RfidStation.Lib.Cstr
import Mathlib.Data.List.Nodup
import Mathlib.Data.List.Perm.Basic

/-! dict.c: a singly linked list behind a sentinel node. `Dict` is the list of items after
the sentinel, so the predecessor of the item at position `n` is the sentinel for `n = 0`
and the item at `n - 1` otherwise. -/
namespace RfidStation
open Cstr

abbrev Key := Bytes

abbrev Dict (α : Type) := List (Key × α)

namespace Dict
variable {α : Type}

def newDict : Dict α := []

def lookup : Dict α → Key → Option α
  | [], _ => none
  | (k,v) :: rest, key => if k = key then some v else lookup rest key

def get (zero : α) (d : Dict α) (key : Key) : α := (lookup d key).getD zero

def overwrite : Dict α → Key → α → Option (Dict α)
  | [], _, _ => none
  | (k,v) :: rest, key, value =>
      if k = key then some ((k,value) :: rest)
      else (overwrite rest key value).map ((k,v) :: ·)

-- `set`: a key that is not found is inserted directly behind the sentinel.
def set (d : Dict α) (key : Key) (value : α) : Dict α :=
  match overwrite d key value with
  | some done => done
  | none => (key,value) :: d

-- `__remove(curr)` unlinks the item behind `curr`; `n` is that item's position.
def remove (d : Dict α) (n : Nat) : Dict α := d.eraseIdx n

def del : Dict α → Key → Dict α × Bool
  | [], _ => ([],false)
  | (k,v) :: rest, key =>
      if k = key then (rest,true)
      else let r := del rest key; ((k,v) :: r.1,r.2)

def keys (d : Dict α) : List Key := d.map Prod.fst

def Distinct (d : Dict α) : Prop := (keys d).Nodup

theorem lookupNone {d : Dict α} {key} : lookup d key = none ↔ key ∉ keys d := by
  induction d with
  | nil => simp [lookup,keys]
  | cons item rest ih =>
    obtain ⟨k,v⟩ := item
    simp only [keys] at ih
    by_cases same : k = key
    · simp [lookup,keys,same]
    · simp [lookup,keys,same,ih,Ne.symm same]

theorem lookupSomeMem {d : Dict α} {key v} (h : lookup d key = some v) : (key,v) ∈ d := by
  induction d with
  | nil => simp [lookup] at h
  | cons item rest ih =>
    obtain ⟨k,w⟩ := item
    by_cases same : k = key
    · simp only [lookup,same,if_true,Option.some.injEq] at h
      simp [same,h]
    · simp only [lookup,same,if_false] at h
      exact List.mem_cons_of_mem _ (ih h)

theorem overwriteNone {d : Dict α} {key value} :
    overwrite d key value = none ↔ key ∉ keys d := by
  induction d with
  | nil => simp [overwrite,keys]
  | cons item rest ih =>
    obtain ⟨k,v⟩ := item
    simp only [keys] at ih
    by_cases same : k = key
    · simp [overwrite,keys,same]
    · simp [overwrite,keys,same,ih,Ne.symm same]

theorem overwriteCons {k key : Key} {v value : α} {rest out : Dict α}
    (h : overwrite ((k,v) :: rest) key value = some out) :
    (k = key ∧ out = (k,value) :: rest) ∨
    (k ≠ key ∧ ∃ tail, overwrite rest key value = some tail ∧ out = (k,v) :: tail) := by
  rw [overwrite] at h
  split at h
  · rename_i same
    exact .inl ⟨same,(Option.some.inj h).symm⟩
  · rename_i other
    obtain ⟨tail,ht,rfl⟩ := Option.map_eq_some_iff.mp h
    exact .inr ⟨other,tail,ht,rfl⟩

theorem overwriteKeys {d out : Dict α} {key value}
    (h : overwrite d key value = some out) : keys out = keys d := by
  induction d generalizing out with
  | nil => simp [overwrite] at h
  | cons item rest ih =>
    obtain ⟨-,rfl⟩ | ⟨-,tail,ht,rfl⟩ := overwriteCons h
    · rfl
    · exact congrArg (item.1 :: ·) (ih ht)

theorem overwriteLookup {d out : Dict α} {key value}
    (h : overwrite d key value = some out) (other : Key) :
    lookup out other = if key = other then some value else lookup d other := by
  induction d generalizing out with
  | nil => simp [overwrite] at h
  | cons item rest ih =>
    obtain ⟨k,v⟩ := item
    obtain ⟨rfl,rfl⟩ | ⟨same,tail,ht,rfl⟩ := overwriteCons h
    · by_cases hit : k = other <;> simp [lookup,hit]
    · simp only [lookup,ih ht]
      by_cases hit : k = other
      · subst other; simp [Ne.symm same]
      · simp [hit]

theorem setLookup (d : Dict α) (key : Key) (value : α) (other : Key) :
    lookup (set d key value) other = if key = other then some value else lookup d other := by
  unfold set
  cases h : overwrite d key value with
  | none => simp [lookup]
  | some out => exact overwriteLookup h other

theorem overwriteMem {d out : Dict α} {key value item}
    (h : overwrite d key value = some out) (mem : item ∈ out) : item ∈ d ∨ item = (key,value) := by
  induction d generalizing out with
  | nil => simp [overwrite] at h
  | cons first rest ih =>
    obtain ⟨rfl,rfl⟩ | ⟨-,tail,ht,rfl⟩ := overwriteCons h
    · rcases List.mem_cons.mp mem with new | old
      · exact .inr new
      · exact .inl (List.mem_cons_of_mem _ old)
    · rcases List.mem_cons.mp mem with here | later
      · exact .inl (here ▸ List.mem_cons_self)
      · exact (ih ht later).imp_left (List.mem_cons_of_mem _)

theorem setMem {d : Dict α} {key value item} (mem : item ∈ set d key value) :
    item ∈ d ∨ item = (key,value) := by
  unfold set at mem
  cases h : overwrite d key value with
  | none => rw [h] at mem; exact (List.mem_cons.mp mem).symm
  | some out => rw [h] at mem; exact overwriteMem h mem

theorem setDistinct {d : Dict α} (distinct : Distinct d) (key : Key) (value : α) :
    Distinct (set d key value) := by
  unfold set
  cases h : overwrite d key value with
  | none => exact List.nodup_cons.mpr ⟨overwriteNone.mp h,distinct⟩
  | some out => simpa only [Distinct,overwriteKeys h] using distinct

theorem delSublist (d : Dict α) (key : Key) : (del d key).1.Sublist d := by
  induction d with
  | nil => exact List.Sublist.refl _
  | cons item rest ih =>
    obtain ⟨k,v⟩ := item
    simp only [del]
    split
    · exact List.sublist_cons_self _ _
    · exact ih.cons_cons _

theorem delDistinct {d : Dict α} (distinct : Distinct d) (key : Key) :
    Distinct (del d key).1 :=
  distinct.sublist ((delSublist d key).map Prod.fst)

theorem delLookup {d : Dict α} (distinct : Distinct d) (key other : Key) :
    lookup (del d key).1 other = if key = other then none else lookup d other := by
  induction d with
  | nil => simp [del,lookup]
  | cons item rest ih =>
    obtain ⟨k,v⟩ := item
    obtain ⟨fresh,distinct⟩ := List.nodup_cons.mp distinct
    by_cases same : k = key
    · subst k
      by_cases hit : key = other
      · subst other; simpa [del] using lookupNone.mpr fresh
      · simp [del,lookup,hit]
    · simp only [del,same,if_false,lookup,ih distinct]
      by_cases hit : k = other
      · subst other; simp [Ne.symm same]
      · simp [hit]

theorem memKeys {d : Dict α} {key v} (mem : (key,v) ∈ d) : key ∈ keys d :=
  List.mem_map_of_mem (f := Prod.fst) mem

theorem removeDel {d : Dict α} (distinct : Distinct d) {n : Nat} {key : Key} {v : α}
    (there : d[n]? = some (key,v)) : remove d n = (del d key).1 := by
  induction d generalizing n with
  | nil => simp at there
  | cons item rest ih =>
    obtain ⟨k,w⟩ := item
    obtain ⟨fresh,distinct⟩ := List.nodup_cons.mp distinct
    cases n with
    | zero =>
      obtain ⟨rfl,rfl⟩ := Prod.mk.inj (Option.some.inj there)
      simp [remove,del]
    | succ n =>
      have later : (key,v) ∈ rest := List.mem_of_getElem? there
      have different : k ≠ key := fun same => fresh (same ▸ memKeys later)
      simp only [del,if_neg different]
      rw [← ih distinct there]
      rfl

theorem delFilter {d : Dict α} (distinct : Distinct d) {key : Key} :
    (del d key).1 = d.filter (fun item => item.1 ≠ key) := by
  induction d with
  | nil => rfl
  | cons item rest ih =>
    obtain ⟨k,v⟩ := item
    obtain ⟨fresh,distinct⟩ := List.nodup_cons.mp distinct
    by_cases same : k = key
    · have all : rest.filter (fun item => item.1 ≠ key) = rest := by
        refine List.filter_eq_self.mpr fun item mem => decide_eq_true fun hit => fresh ?_
        rw [same,← hit]
        exact memKeys (v := item.2) mem
      simp only [del,same,if_true]
      rw [List.filter_cons_of_neg (by simp),all]
    · simp only [del,same,if_false]
      rw [List.filter_cons_of_pos (by simpa using same),ih distinct]

theorem delFlag (d : Dict α) {key : Key} : (del d key).2 = (lookup d key).isSome := by
  induction d with
  | nil => rfl
  | cons item rest ih =>
    obtain ⟨k,v⟩ := item
    by_cases same : k = key
    · simp [del,lookup,same]
    · simpa [del,lookup,same] using ih

theorem lookupOfMem {d : Dict α} (distinct : Distinct d) {key v} (mem : (key,v) ∈ d) :
    lookup d key = some v := by
  induction d with
  | nil => simp at mem
  | cons item rest ih =>
    obtain ⟨k,w⟩ := item
    obtain ⟨fresh,distinct⟩ := List.nodup_cons.mp distinct
    rcases List.mem_cons.mp mem with same | later
    · obtain ⟨rfl,rfl⟩ := Prod.mk.inj same
      simp [lookup]
    · have different : k ≠ key := fun same => fresh (same ▸ memKeys later)
      simp only [lookup,if_neg different]
      exact ih distinct later

section Contents
variable {β : Type} (f : α → List β)

def contents (d : Dict α) : List β := d.flatMap (fun item => f item.2)

theorem memContents {d : Dict α} {key v x} (found : lookup d key = some v) (mem : x ∈ f v) :
    x ∈ contents f d :=
  List.mem_flatMap.mpr ⟨_,lookupSomeMem found,mem⟩

theorem overwritePerm {d out : Dict α} {key value} (h : overwrite d key value = some out) :
    (contents f out ++ ((lookup d key).map f).getD []).Perm (contents f d ++ f value) := by
  induction d generalizing out with
  | nil => simp [overwrite] at h
  | cons item rest ih =>
    obtain ⟨k,v⟩ := item
    obtain ⟨rfl,rfl⟩ | ⟨same,tail,ht,rfl⟩ := overwriteCons h
    · simp only [contents,List.flatMap_cons,lookup,if_true,Option.map_some,Option.getD_some]
      rw [List.append_assoc (f v)]
      exact List.perm_append_comm.trans (List.perm_append_comm.append_left (f v))
    · simp only [contents,List.flatMap_cons,lookup,same,if_false,List.append_assoc]
      exact (ih ht).append_left _

theorem setPerm (d : Dict α) (key : Key) (value : α) :
    (contents f (set d key value) ++ ((lookup d key).map f).getD []).Perm
      (contents f d ++ f value) := by
  unfold set
  cases h : overwrite d key value with
  | none =>
    have absent : lookup d key = none := lookupNone.mpr (overwriteNone.mp h)
    simp only [absent,Option.map_none,Option.getD_none,List.append_nil,contents,List.flatMap_cons]
    exact List.perm_append_comm
  | some out => exact overwritePerm f h

theorem delPerm (d : Dict α) (key : Key) :
    (contents f (del d key).1 ++ ((lookup d key).map f).getD []).Perm (contents f d) := by
  induction d with
  | nil => exact List.Perm.refl _
  | cons item rest ih =>
    obtain ⟨k,v⟩ := item
    by_cases same : k = key
    · simp only [del,lookup,same,if_true,Option.map_some,Option.getD_some,contents,
        List.flatMap_cons]
      exact List.perm_append_comm
    · simp only [del,lookup,same,if_false,contents,List.flatMap_cons,List.append_assoc]
      exact ih.append_left _

end Contents

end Dict
end RfidStation
