import Mathlib.Data.List.Basic

/-!
Runs of a labelled transition system: the list of events is kept, so that a
result can put a condition on every event and speak about every reached state.
-/
namespace Monzero.Runs

variable {σ α : Type}

inductive Run (step : σ → α → σ → Prop) : σ → List α → σ → Prop
  | nil (s : σ) : Run step s [] s
  | cons {s s' t : σ} {a : α} {rest : List α} (head : step s a s') (tail : Run step s' rest t) :
      Run step s (a :: rest) t

/-- What every step keeps, under a condition on its event, holds at the end of every run
whose events meet the condition. -/
theorem Run.invariant {step : σ → α → σ → Prop} (I : σ → Prop) (allowed : α → Prop)
    (hstep : ∀ s a s', I s → allowed a → step s a s' → I s') {s t : σ} {evs : List α}
    (run : Run step s evs t) (hall : ∀ a ∈ evs, allowed a) (hs : I s) : I t := by
  induction run with
  | nil s => exact hs
  | cons head tail ih =>
    have hnext := hstep _ _ _ hs (hall _ List.mem_cons_self) head
    exact ih (fun a ha => hall a (List.mem_cons_of_mem _ ha)) hnext

theorem foldl_foldl_of_commute {f g : σ → α → σ} (hcommute : ∀ s a b, g (f s a) b = f (g s b) a)
    (l : List α) (s : σ) : l.foldl g (l.foldl f s) = l.foldl (fun s a => g (f s a) a) s := by
  have hpast : ∀ (rest : List α) (s : σ) (b : α), g (rest.foldl f s) b = rest.foldl f (g s b) := by
    intro rest
    induction rest with
    | nil => exact fun _ _ => rfl
    | cons a rest ih =>
      intro s b
      rw [List.foldl_cons, ih, List.foldl_cons, hcommute]
  induction l generalizing s with
  | nil => rfl
  | cons a rest ih => rw [List.foldl_cons, List.foldl_cons, List.foldl_cons, hpast, ih]

end Monzero.Runs
