import Mathlib.Data.List.Nodup

/-! Singly linked lists on a heap of nodes, seen from the node before them: `entries` lists the
address and the value of each node behind it. An entry's value is kept in its node as `store`
has it. -/
namespace Linked
variable {α β : Type}

structure Node (α : Type) where
  item : α
  next : Option Nat
  deriving DecidableEq, Repr

abbrev Heap (α : Type) := Nat → Option (Node α)

def Heap.put (h : Heap α) (p : Nat) (cell : Option (Node α)) : Heap α := fun q => if q = p then cell else h q

def addresses (entries : List (Nat × β)) : List Nat := entries.map Prod.fst

def values (entries : List (Nat × β)) : List β := entries.map Prod.snd

def first (entries : List (Nat × β)) : Option Nat := entries.head?.map Prod.fst

def Behind (store : β → α) (h : Heap α) : Nat → α → List (Nat × β) → Prop
  | d, x, [] => h d = some ⟨x,none⟩
  | d, x, (a,y) :: rest => h d = some ⟨x,some a⟩ ∧ Behind store h a (store y) rest

def Frame (owned : List Nat) (h h' : Heap α) : Prop := ∀ q, q ∉ owned → h' q = h q

theorem putSame (h : Heap α) (p : Nat) (cell : Option (Node α)) : h.put p cell p = cell := if_pos rfl

theorem putOther (h : Heap α) {p q : Nat} (cell : Option (Node α)) (other : q ≠ p) :
    h.put p cell q = h q := if_neg other

theorem putFrame (h : Heap α) {p : Nat} {owned : List Nat} (cell : Option (Node α)) (mine : p ∈ owned) :
    Frame owned h (h.put p cell) :=
  fun _ outside => putOther h cell (fun same => outside (same ▸ mine))

theorem frameTrans {owned : List Nat} {a b c : Heap α} (ab : Frame owned a b) (bc : Frame owned b c) :
    Frame owned a c :=
  fun q outside => (bc q outside).trans (ab q outside)

theorem frameWiden {small large : List Nat} {a b : Heap α} (frame : Frame small a b)
    (within : small ⊆ large) : Frame large a b :=
  fun q outside => frame q (fun mem => outside (within mem))

section
variable {store : β → α} {h h' : Heap α} {d : Nat} {x : α} {entries : List (Nat × β)}

theorem behindHead (behind : Behind store h d x entries) : h d = some ⟨x,first entries⟩ := by
  cases entries with
  | nil => exact behind
  | cons entry rest => exact behind.1

theorem behindUsed (behind : Behind store h d x entries) : ∀ q ∈ d :: addresses entries, h q ≠ none := by
  induction entries generalizing d x with
  | nil =>
    intro q mem
    obtain rfl := List.mem_singleton.mp mem
    simp [behindHead behind]
  | cons entry rest ih =>
    intro q mem
    rcases List.mem_cons.mp mem with rfl | later
    · simp [behind.1]
    · exact ih behind.2 q later

theorem behindSame (behind : Behind store h d x entries)
    (same : ∀ q ∈ d :: addresses entries, h' q = h q) : Behind store h' d x entries := by
  induction entries generalizing d x with
  | nil => exact (same d List.mem_cons_self).trans behind
  | cons entry rest ih =>
    obtain ⟨here,later⟩ := behind
    refine ⟨(same d List.mem_cons_self).trans here,ih later fun q mem => ?_⟩
    exact same q (List.mem_cons_of_mem d mem)

theorem behindFrame {owned : List Nat} (behind : Behind store h d x entries) (frame : Frame owned h h')
    (apart : List.Disjoint (d :: addresses entries) owned) : Behind store h' d x entries :=
  behindSame behind (fun q mem => frame q (apart mem))

theorem insertBehind {fresh : Nat} {y : β} (behind : Behind store h d x entries)
    (distinct : (d :: addresses entries).Nodup) (new : fresh ∉ d :: addresses entries) :
    Behind store ((h.put fresh (some ⟨store y,first entries⟩)).put d (some ⟨x,some fresh⟩)) d x
      ((fresh,y) :: entries) := by
  refine ⟨putSame _ _ _,?_⟩
  have other : fresh ≠ d := List.ne_of_not_mem_cons new
  cases entries with
  | nil => exact (putOther _ _ other).trans (putSame _ _ _)
  | cons entry rest =>
    refine ⟨(putOther _ _ other).trans (putSame _ _ _),behindSame behind.2 fun q mem => ?_⟩
    have apart : q ≠ d := fun same => (List.nodup_cons.mp distinct).1 (same ▸ mem)
    have older : q ≠ fresh := fun same => new (same ▸ List.mem_cons_of_mem d mem)
    rw [putOther _ _ apart,putOther _ _ older]

theorem unlinkBehind {a : Nat} {y : β} (behind : Behind store h d x ((a,y) :: entries))
    (distinct : (d :: a :: addresses entries).Nodup) :
    Behind store ((h.put d (some ⟨x,first entries⟩)).put a none) d x entries := by
  obtain ⟨notHere,inner⟩ := List.nodup_cons.mp distinct
  have other : d ≠ a := List.ne_of_not_mem_cons notHere
  have head : ((h.put d (some ⟨x,first entries⟩)).put a none) d = some ⟨x,first entries⟩ :=
    (putOther _ _ other).trans (putSame _ _ _)
  cases entries with
  | nil => exact head
  | cons entry rest =>
    refine ⟨head,behindSame behind.2.2 fun q mem => ?_⟩
    have apart : q ≠ a := fun same => (List.nodup_cons.mp inner).1 (same ▸ mem)
    have older : q ≠ d := fun same => notHere (same ▸ List.mem_cons_of_mem a mem)
    rw [putOther _ _ apart,putOther _ _ older]

theorem replaceBehind {a : Nat} {y z : β} (behind : Behind store h d x ((a,y) :: entries))
    (distinct : (d :: a :: addresses entries).Nodup) :
    Behind store (h.put a (some ⟨store z,first entries⟩)) d x ((a,z) :: entries) := by
  obtain ⟨notHere,inner⟩ := List.nodup_cons.mp distinct
  refine ⟨(putOther _ _ (List.ne_of_not_mem_cons notHere)).trans behind.1,?_⟩
  cases entries with
  | nil => exact putSame _ _ _
  | cons entry rest =>
    refine ⟨putSame _ _ _,behindSame behind.2.2 fun q mem => ?_⟩
    exact putOther _ _ (fun same => (List.nodup_cons.mp inner).1 (same ▸ mem))

end

def Chain (store : β → α) (h : Heap α) : Option Nat → List (Nat × β) → Prop
  | p, [] => p = none
  | p, (a,y) :: rest => p = some a ∧ Behind store h a (store y) rest

section
variable {store : β → α} {h h' : Heap α} {p : Option Nat} {entries : List (Nat × β)}

theorem chainFirst (chain : Chain store h p entries) : p = first entries := by
  cases entries with
  | nil => exact chain
  | cons entry rest => exact chain.1

theorem chainBehind {d : Nat} {x : α} (behind : Behind store h d x entries) :
    Chain store h (first entries) entries := by
  cases entries with
  | nil => rfl
  | cons entry rest => exact ⟨rfl,behind.2⟩

theorem chainSame (chain : Chain store h p entries)
    (same : ∀ q ∈ addresses entries, h' q = h q) : Chain store h' p entries := by
  cases entries with
  | nil => exact chain
  | cons entry rest => exact ⟨chain.1,behindSame chain.2 same⟩

theorem chainUsed (chain : Chain store h p entries) : ∀ q ∈ addresses entries, h q ≠ none := by
  cases entries with
  | nil => exact fun _ mem => absurd mem List.not_mem_nil
  | cons entry rest => exact behindUsed chain.2

theorem chainSuffix {rest : List (Nat × β)} (chain : Chain store h p entries) (suffix : rest <:+ entries) :
    Chain store h (first rest) rest := by
  induction entries generalizing p with
  | nil => obtain rfl := List.suffix_nil.mp suffix; rfl
  | cons entry later ih =>
    obtain rfl | inner := List.suffix_cons_iff.mp suffix
    · exact ⟨rfl,chain.2⟩
    · exact ih (chainBehind chain.2) inner

theorem chainCons {new : Nat} {y : β} (chain : Chain store h p entries)
    (node : h new = some ⟨store y,p⟩) : Chain store h (some new) ((new,y) :: entries) := by
  refine ⟨rfl,?_⟩
  cases entries with
  | nil => exact node.trans (by rw [chainFirst chain]; rfl)
  | cons entry rest => exact ⟨node.trans (by rw [chain.1]),chain.2⟩

end

end Linked
