import RfidStation.Lib.Runs

/-! A machine and a smaller one that it stands for or contains: each step of the first is one
permitted step of the second or none, so that every run of the first has a run of the second. -/
namespace Parts
open Runs
universe u v w x
variable {σ : Type u} {α : Type v} {τ : Type w} {β : Type x}

inductive Sees (step : τ → β → Option τ) (ok : τ → β → Prop) (p : τ) : τ → Prop where
  | still : Sees step ok p p
  | moved {q : τ} (b : β) (permitted : ok p b) (h : step p b = some q) : Sees step ok p q

variable {whole : σ → α → Option σ} {step : τ → β → Option τ}
  {allowed : σ → α → Prop} {ok : τ → β → Prop} {R : σ → τ → Prop}

theorem seesCons {p q : τ} (sees : Sees step ok p q) {bs : List β} {r : τ}
    (later : exec step q bs = some r) (meets : Meets step ok q bs) :
    ∃ cs, exec step p cs = some r ∧ Meets step ok p cs := by
  cases sees with
  | still => exact ⟨bs,later,meets⟩
  | moved b permitted h =>
    refine ⟨b :: bs,by rw [exec,h,Option.bind_some,later],fun m same => ?_⟩
    cases Option.some.inj (h.symm.trans same)
    exact ⟨permitted,meets⟩

theorem relatedRun
    (sees : ∀ s p a t, R s p → allowed s a → whole s a = some t → ∃ q, Sees step ok p q ∧ R t q)
    {s t : σ} {p : τ} {acts : List α} (start : R s p) (meets : Meets whole allowed s acts)
    (run : exec whole s acts = some t) :
    ∃ bs q, exec step p bs = some q ∧ Meets step ok p bs ∧ R t q := by
  induction acts generalizing s p with
  | nil =>
    cases Option.some.inj run
    exact ⟨[],p,rfl,trivial,start⟩
  | cons a rest ih =>
    obtain ⟨m,moved,later⟩ := execCons run
    obtain ⟨permitted,meets⟩ := meets m moved
    obtain ⟨q,seen,related⟩ := sees s p a m start permitted moved
    obtain ⟨bs,r,runs,steps,last⟩ := ih related meets later
    obtain ⟨cs,runs,steps⟩ := seesCons seen runs steps
    exact ⟨cs,r,runs,steps,last⟩

theorem partInvariant (part : σ → τ) {I : τ → Prop}
    (sees : ∀ s a t, allowed s a → whole s a = some t → Sees step ok (part s) (part t))
    (keeps : ∀ p b q, I p → ok p b → step p b = some q → I q)
    {s t : σ} {acts : List α} (start : I (part s)) (meets : Meets whole allowed s acts)
    (run : exec whole s acts = some t) : I (part t) := by
  obtain ⟨bs,q,runs,steps,rfl⟩ := relatedRun (R := fun s p => part s = p)
    (fun s p a t same permitted moved => ⟨part t,same ▸ sees s a t permitted moved,rfl⟩) rfl meets run
  exact invariantUnder keeps start steps runs

end Parts
