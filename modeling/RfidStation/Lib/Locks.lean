import Mathlib.Logic.Relation

/-! Threads and the locks between them. `owner` is what the locks say, `holds` where the
threads are: between locking and unlocking. `wants` is the lock that a thread waits for when it
is not free. -/
namespace Locks
universe u v
variable {T : Type u} {L : Type v}

def Owned (owner : L → Option T) (holds : T → L → Prop) : Prop :=
  ∀ t l, owner l = some t ↔ holds t l

inductive Moves [DecidableEq L] (owner next : L → Option T) (holds after : T → L → Prop) : Prop where
  | keep (owners : next = owner) (held : ∀ t l, after t l ↔ holds t l)
  | lock (t : T) (l : L) (free : owner l = none)
      (owners : ∀ k, next k = if k = l then some t else owner k)
      (held : ∀ u k, after u k ↔ holds u k ∨ u = t ∧ k = l)
  | unlock (t : T) (l : L) (here : holds t l)
      (owners : ∀ k, next k = if k = l then none else owner k)
      (held : ∀ u k, after u k ↔ holds u k ∧ ¬ (u = t ∧ k = l))

variable {owner next : L → Option T} {holds after : T → L → Prop}

theorem exclusive (owned : Owned owner holds) {t u : T} {l : L} (first : holds t l)
    (second : holds u l) : t = u :=
  Option.some.inj (((owned t l).mpr first).symm.trans ((owned u l).mpr second))

theorem movesOwned [DecidableEq L] (owned : Owned owner holds) (moves : Moves owner next holds after) :
    Owned next after := by
  cases moves with
  | keep owners held =>
    intro t l
    rw [owners,held t l]
    exact owned t l
  | lock t l free owners held =>
    intro u k
    rw [owners k,held u k]
    by_cases same : k = l
    · subst k
      rw [if_pos rfl,← owned u l,free]
      simp [eq_comm]
    · rw [if_neg same,owned u k]
      simp [same]
  | unlock t l here owners held =>
    intro u k
    rw [owners k,held u k]
    by_cases same : k = l
    · subst k
      rw [if_pos rfl]
      refine ⟨fun absurd_owner => by simp at absurd_owner,fun holding => ?_⟩
      exact absurd ⟨exclusive owned holding.1 here,rfl⟩ holding.2
    · rw [if_neg same,owned u k]
      simp [same]

def Blocked (owner : L → Option T) (wants : T → Option L) (t : T) : Prop :=
  ∃ l, wants t = some l ∧ owner l ≠ none

def WaitsFor (owner : L → Option T) (wants : T → Option L) (t u : T) : Prop :=
  ∃ l, wants t = some l ∧ owner l = some u

variable {wants : T → Option L} {rank : L → Nat} {bound : Nat}

def Ordered (holds : T → L → Prop) (wants : T → Option L) (rank : L → Nat) : Prop :=
  ∀ t l, wants t = some l → ∀ h, holds t h → rank h < rank l

theorem ownerMoves (owned : Owned owner holds) (ordered : Ordered holds wants rank) {t : T} {l : L}
    (own : owner l = some t) (top : ∀ k, rank k ≤ rank l) : ¬ Blocked owner wants t := by
  rintro ⟨k,wanted,-⟩
  have above := ordered t k wanted l ((owned t l).mp own)
  exact absurd (top k) (Nat.not_le_of_lt above)

theorem chainFrom (owned : Owned owner holds) (ordered : Ordered holds wants rank)
    (bounded : ∀ l, rank l < bound) (n : Nat) {t : T} {l : L} (wanted : wants t = some l)
    (left : bound ≤ rank l + n) :
    ∃ u, Relation.ReflTransGen (WaitsFor owner wants) t u ∧ ¬ Blocked owner wants u := by
  induction n generalizing t l with
  | zero => exact absurd (bounded l) (by omega)
  | succ n ih =>
    cases free : owner l with
    | none =>
      refine ⟨t,.refl,?_⟩
      rintro ⟨k,other,taken⟩
      cases Option.some.inj (wanted.symm.trans other)
      exact taken free
    | some v =>
      have step : WaitsFor owner wants t v := ⟨l,wanted,free⟩
      cases next : wants v with
      | none =>
        refine ⟨v,.single step,?_⟩
        rintro ⟨k,other,-⟩
        rw [next] at other
        contradiction
      | some k =>
        have higher := ordered v k next l ((owned v l).mp free)
        obtain ⟨u,chain,moves⟩ := ih next (by omega)
        exact ⟨u,.head step chain,moves⟩

/-- With the locks taken in the order of their ranks, every thread waits, if at all, for a
chain of owners whose last one is not blocked. -/
theorem chainEnds (owned : Owned owner holds) (ordered : Ordered holds wants rank)
    (bounded : ∀ l, rank l < bound) (t : T) :
    ∃ u, Relation.ReflTransGen (WaitsFor owner wants) t u ∧ ¬ Blocked owner wants u := by
  cases wanted : wants t with
  | none =>
    refine ⟨t,.refl,?_⟩
    rintro ⟨l,other,-⟩
    rw [wanted] at other
    contradiction
  | some l => exact chainFrom owned ordered bounded bound wanted (by omega)

end Locks
