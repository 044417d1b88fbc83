import Mathlib.Tactic.ByContra

/-! Runs of a partial step function. `none` means that the step is not enabled.
A condition on steps is a predicate on the state before the step and its label. -/
namespace Runs
universe u v
variable {σ : Type u} {α : Type v}

def exec (step : σ → α → Option σ) : σ → List α → Option σ
  | s, [] => some s
  | s, a :: rest => (step s a).bind (fun t => exec step t rest)

def Meets (step : σ → α → Option σ) (ok : σ → α → Prop) : σ → List α → Prop
  | _, [] => True
  | s, a :: rest => ∀ t, step s a = some t → ok s a ∧ Meets step ok t rest

def Always (step : σ → α → Option σ) (good : σ → Prop) : σ → List α → Prop
  | s, [] => good s
  | s, a :: rest => good s ∧ ∀ t, step s a = some t → Always step good t rest

theorem guarded {p : Prop} [Decidable p] {s t : σ} (h : (if p then some s else none) = some t) :
    p ∧ t = s := by
  obtain ⟨enabled,same⟩ := Option.ite_none_right_eq_some.mp h
  exact ⟨enabled,(Option.some.inj same).symm⟩

variable {step : σ → α → Option σ} {ok : σ → α → Prop} {good I : σ → Prop}

theorem execCons {s a rest t} (h : exec step s (a :: rest) = some t) :
    ∃ m, step s a = some m ∧ exec step m rest = some t := Option.bind_eq_some_iff.mp h

theorem execAppend (s : σ) (a b : List α) :
    exec step s (a ++ b) = (exec step s a).bind (fun t => exec step t b) := by
  induction a generalizing s with
  | nil => rfl
  | cons x rest ih =>
    simp only [List.cons_append,exec,ih]
    cases step s x <;> rfl

theorem invariantUnder
    (keeps : ∀ s a t, I s → ok s a → step s a = some t → I t)
    {s acts t} (start : I s) (meets : Meets step ok s acts)
    (run : exec step s acts = some t) : I t := by
  induction acts generalizing s with
  | nil => cases Option.some.inj run; exact start
  | cons a rest ih =>
    obtain ⟨m,hm,later⟩ := execCons run
    obtain ⟨permitted,meets⟩ := meets m hm
    exact ih (keeps s a m start permitted hm) meets later

theorem meetsTrue (s : σ) (acts : List α) : Meets step (fun _ _ => True) s acts := by
  induction acts generalizing s with
  | nil => trivial
  | cons a rest ih => exact fun t _ => ⟨trivial,ih t⟩

theorem meetsOf {allowed : α → Prop} {s : σ} {acts : List α} (all : ∀ a ∈ acts, allowed a) :
    Meets step (fun _ a => allowed a) s acts := by
  induction acts generalizing s with
  | nil => trivial
  | cons a rest ih =>
    exact fun t _ => ⟨all a List.mem_cons_self,ih (fun b mem => all b (List.mem_cons_of_mem a mem))⟩

theorem invariant (keeps : ∀ s a t, I s → step s a = some t → I t)
    {s acts t} (start : I s) (run : exec step s acts = some t) : I t :=
  invariantUnder (fun s a t hs (_ : True) => keeps s a t hs) start (meetsTrue s acts) run

instance decidableMeets [∀ s a, Decidable (ok s a)] :
    (s : σ) → (acts : List α) → Decidable (Meets step ok s acts)
  | _, [] => isTrue trivial
  | s, a :: rest => match h : step s a with
    | none => isTrue (fun t ht => by rw [h] at ht; contradiction)
    | some m => match inferInstanceAs (Decidable (ok s a)), decidableMeets m rest with
      | isTrue now, isTrue later => isTrue (fun t ht => by
          rw [h] at ht
          cases Option.some.inj ht
          exact ⟨now,later⟩)
      | isFalse now, _ => isFalse (fun all => now (all m h).1)
      | _, isFalse later => isFalse (fun all => later (all m h).2)

instance decidableAlways [∀ s, Decidable (good s)] :
    (s : σ) → (acts : List α) → Decidable (Always step good s acts)
  | s, [] => inferInstanceAs (Decidable (good s))
  | s, a :: rest => match h : step s a with
    | none => decidable_of_iff (good s)
        ⟨fun now => ⟨now,fun t ht => by rw [h] at ht; contradiction⟩,And.left⟩
    | some m => match inferInstanceAs (Decidable (good s)), decidableAlways m rest with
      | isTrue now, isTrue later => isTrue ⟨now,fun t ht => by
          rw [h] at ht
          cases Option.some.inj ht
          exact later⟩
      | isFalse now, _ => isFalse (fun all => now all.1)
      | _, isFalse later => isFalse (fun all => later (all.2 m h))

theorem alwaysHead {s acts} (h : Always step good s acts) : good s := by
  cases acts with
  | nil => exact h
  | cons a rest => exact h.1

theorem alwaysIff {s : σ} {acts : List α} : Always step good s acts ↔
    ∀ pre post t, acts = pre ++ post → exec step s pre = some t → good t := by
  induction acts generalizing s with
  | nil =>
    constructor
    · intro h pre post t split run
      obtain ⟨rfl,rfl⟩ := List.append_eq_nil_iff.mp split.symm
      cases Option.some.inj run; exact h
    · intro h; exact h [] [] s rfl rfl
  | cons a rest ih =>
    constructor
    · intro h pre post t split run
      cases pre with
      | nil => cases Option.some.inj run; exact h.1
      | cons b pre =>
        obtain ⟨rfl,tails⟩ := List.cons.inj split
        obtain ⟨m,hm,later⟩ := execCons run
        exact ih.mp (h.2 m hm) pre post t tails later
    · intro h
      refine ⟨h [] (a :: rest) s rfl rfl,fun m hm => ih.mpr ?_⟩
      intro pre post t split run
      refine h (a :: pre) post t (by rw [split]; rfl) ?_
      simp only [exec,hm,Option.bind_some,run]

theorem alwaysLast {s acts t} (h : Always step good s acts) (run : exec step s acts = some t) : good t :=
  alwaysIff.mp h acts [] t (List.append_nil acts).symm run

theorem alwaysAppend {s : σ} {a b : List α} : Always step good s (a ++ b) ↔
    Always step good s a ∧ ∀ t, exec step s a = some t → Always step good t b := by
  induction a generalizing s with
  | nil =>
    rw [List.nil_append]
    refine ⟨fun h => ?_,fun h => h.2 s rfl⟩
    have head : good s := alwaysHead h
    exact ⟨head,fun t run => Option.some.inj run ▸ h⟩
  | cons x rest ih =>
    constructor
    · intro h
      refine ⟨⟨h.1,fun m moved => (ih.mp (h.2 m moved)).1⟩,fun t run => ?_⟩
      obtain ⟨m,moved,later⟩ := execCons run
      exact (ih.mp (h.2 m moved)).2 t later
    · intro ⟨first,last⟩
      refine ⟨first.1,fun m moved => ih.mpr ⟨first.2 m moved,fun t run => last t ?_⟩⟩
      rw [exec,moved,Option.bind_some,run]

theorem alwaysMeets (grants : ∀ s a t, step s a = some t → good t → ok s a)
    {s : σ} {acts : List α} (always : Always step good s acts) : Meets step ok s acts := by
  induction acts generalizing s with
  | nil => trivial
  | cons a rest ih =>
    intro t moved
    have later := always.2 t moved
    exact ⟨grants s a t moved (alwaysHead later),ih later⟩

theorem alwaysBefore {s : σ} {acts : List α} (always : Always step good s acts) :
    Meets step (fun s _ => good s) s acts := by
  induction acts generalizing s with
  | nil => trivial
  | cons a rest ih => exact fun t moved => ⟨always.1,ih (always.2 t moved)⟩

theorem notAlways {s acts t} (run : exec step s acts = some t) (bad : ¬ good t) :
    ¬ Always step good s acts :=
  fun h => bad (alwaysLast h run)

theorem alwaysUnder (good_of_inv : ∀ s, I s → good s)
    (keeps : ∀ s a t, I s → ok s a → step s a = some t → I t)
    {s acts} (start : I s) (meets : Meets step ok s acts) : Always step good s acts := by
  induction acts generalizing s with
  | nil => exact good_of_inv s start
  | cons a rest ih =>
    exact ⟨good_of_inv s start,fun t ht => ih (keeps s a t start (meets t ht).1 ht) (meets t ht).2⟩

theorem meetsUnder {ok' : σ → α → Prop}
    (grants : ∀ s a t, I s → ok s a → step s a = some t → ok' s a)
    (keeps : ∀ s a t, I s → ok s a → step s a = some t → I t)
    {s acts} (start : I s) (meets : Meets step ok s acts) : Meets step ok' s acts := by
  induction acts generalizing s with
  | nil => trivial
  | cons a rest ih =>
    intro t ht
    obtain ⟨permitted,later⟩ := meets t ht
    exact ⟨grants s a t start permitted ht,ih (keeps s a t start permitted ht) later⟩

theorem countedDown (measure : σ → Nat) (mine : α → Bool)
    (keeps : ∀ s a t, I s → ok s a → step s a = some t → I t)
    (down : ∀ s a t, I s → ok s a → mine a = true → step s a = some t → measure t < measure s)
    (stays : ∀ s a t, I s → ok s a → mine a = false → step s a = some t → measure t ≤ measure s)
    {s acts t} (start : I s) (meets : Meets step ok s acts) (run : exec step s acts = some t) :
    acts.countP mine + measure t ≤ measure s := by
  induction acts generalizing s with
  | nil => cases Option.some.inj run; simp
  | cons a rest ih =>
    obtain ⟨m,moved,later⟩ := execCons run
    obtain ⟨permitted,meets⟩ := meets m moved
    have left := ih (keeps s a m start permitted moved) meets later
    cases own : mine a with
    | true =>
      have := down s a m start permitted own moved
      rw [List.countP_cons_of_pos own]; omega
    | false =>
      have := stays s a m start permitted own moved
      rw [List.countP_cons_of_neg (by simp [own])]; omega

theorem workedOff (measure : σ → Nat) (mine : α → Bool)
    (keeps : ∀ s a t, I s → ok s a → step s a = some t → I t)
    (down : ∀ s a t, I s → ok s a → step s a = some t →
      measure t ≤ measure s - if mine a then 1 else 0)
    {s acts t} (start : I s) (meets : Meets step ok s acts) (run : exec step s acts = some t) :
    measure t ≤ measure s - acts.countP mine := by
  induction acts generalizing s with
  | nil => cases Option.some.inj run; simp
  | cons a rest ih =>
    obtain ⟨m,moved,later⟩ := execCons run
    obtain ⟨permitted,meets⟩ := meets m moved
    have left := ih (keeps s a m start permitted moved) meets later
    have first := down s a m start permitted moved
    rw [List.countP_cons]
    omega

/-- A run is good throughout exactly when each of its steps meets the condition, if the
invariant is kept by the good steps and the first bad step already spoils the state. -/
theorem alwaysIffMeets
    (good_of_inv : ∀ s, I s → good s)
    (keeps : ∀ s a t, I s → ok s a → step s a = some t → I t)
    (spoils : ∀ s a t, I s → ¬ ok s a → step s a = some t → ¬ good t)
    {s} (start : I s) (acts : List α) :
    Always step good s acts ↔ Meets step ok s acts := by
  refine ⟨fun h => ?_,alwaysUnder good_of_inv keeps start⟩
  induction acts generalizing s with
  | nil => trivial
  | cons a rest ih =>
    intro t ht
    have permitted : ok s a := by
      by_contra bad
      exact spoils s a t start bad ht (alwaysHead (h.2 t ht))
    exact ⟨permitted,ih (keeps s a t start permitted ht) (h.2 t ht)⟩

end Runs
