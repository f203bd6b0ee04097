import Mathlib.Order.WellFounded
import Mathlib.Tactic.Common
/-!
# Runs of a machine

A machine is a partial step function: on a state and an input it gives an
output and the next state, or `none` where its behaviour is undefined. A `Run`
is a sequence of inputs, each one allowed by `ok` in the state it is given,
with the outputs they produced. A theorem about every `Run` holds of every
order of calls its clients can make.
-/

namespace Lib

variable {σ ι ρ τ : Type}

/-- The runs from `s₀`: the inputs with their outputs, and the state reached. -/
inductive Run (step : σ → ι → Option (ρ × σ)) (ok : σ → ι → Prop) (s₀ : σ) : List (ι × ρ) → σ → Prop
  | nil : Run step ok s₀ [] s₀
  | snoc {evs s i r s'} : Run step ok s₀ evs s → ok s i → step s i = some (r, s') →
      Run step ok s₀ (evs ++ [(i, r)]) s'

/-- The runs of a specification that relates a state, an input and an output
to the next state. -/
inductive SpecRun (spec : τ → ι → ρ → τ → Prop) (a₀ : τ) : List (ι × ρ) → τ → Prop
  | nil : SpecRun spec a₀ [] a₀
  | snoc {evs a i r a'} : SpecRun spec a₀ evs a → spec a i r a' → SpecRun spec a₀ (evs ++ [(i, r)]) a'

variable {step : σ → ι → Option (ρ × σ)} {ok : σ → ι → Prop} {s₀ : σ}

/-- An invariant kept by every allowed step holds after every run. -/
theorem Run.inv (I : σ → Prop) (h0 : I s₀)
    (hs : ∀ s i r s', I s → ok s i → step s i = some (r, s') → I s')
    {evs : List (ι × ρ)} {s : σ} (h : Run step ok s₀ evs s) : I s := by
  induction h with
  | nil => exact h0
  | snoc _ hok hst ih => exact hs _ _ _ _ ih hok hst

/-- Run a list of inputs, checking that each is allowed. -/
def exec (step : σ → ι → Option (ρ × σ)) (ok : σ → ι → Bool) : σ → List ι → Option (List ρ × σ)
  | s, [] => some ([], s)
  | s, i :: is =>
    if ok s i then do
      let (r, s') ← step s i
      let (rs, s'') ← exec step ok s' is
      some (r :: rs, s'')
    else none

/-- What `exec` computes is a run. -/
theorem Run.exec {ok : σ → ι → Bool} {evs : List (ι × ρ)} {s s' : σ} {is : List ι} {rs : List ρ}
    (h : Run step (fun s i => ok s i) s₀ evs s) (he : Lib.exec step ok s is = some (rs, s')) :
    Run step (fun s i => ok s i) s₀ (evs ++ is.zip rs) s' := by
  induction is generalizing evs s rs with
  | nil =>
    cases he
    simpa using h
  | cons i is ih =>
    rw [Lib.exec] at he
    split at he
    · rename_i hok
      simp only [Option.bind_eq_bind, Option.bind_eq_some_iff, Option.some.injEq, Prod.mk.injEq, Prod.exists] at he
      obtain ⟨r, s₁, hst, rs', s₂, hex, rfl, rfl⟩ := he
      have := ih (.snoc h hok hst) hex
      rwa [List.append_assoc] at this
    · cases he

/-- The state that `exec` ends in. -/
def final (step : σ → ι → Option (ρ × σ)) (ok : σ → ι → Bool) (s₀ : σ) (is : List ι) : σ :=
  ((exec step ok s₀ is).map Prod.snd).getD s₀

theorem Run.final {ok : σ → ι → Bool} {is : List ι} (h : (Lib.exec step ok s₀ is).isSome = true) :
    ∃ evs, Run step (fun s i => ok s i) s₀ evs (Lib.final step ok s₀ is) := by
  obtain ⟨⟨rs, s⟩, hs⟩ := Option.isSome_iff_exists.1 h
  have hfin : Lib.final step ok s₀ is = s := by simp [Lib.final, hs]
  rw [hfin]
  exact ⟨_, Run.nil.exec hs⟩

/-- A run under a stronger condition on the inputs is a run under a weaker one. -/
theorem Run.mono {ok' : σ → ι → Prop} (himp : ∀ s i, ok s i → ok' s i) {evs : List (ι × ρ)} {s : σ}
    (h : Run step ok s₀ evs s) : Run step ok' s₀ evs s := by
  induction h with
  | nil => exact .nil
  | snoc _ hok hst ih => exact .snoc ih (himp _ _ hok) hst

/-- Forward simulation: a machine whose every allowed step is matched by the
specification has only runs the specification has. -/
theorem Run.refines (R : σ → τ → Prop) {spec : τ → ι → ρ → τ → Prop} {a₀ : τ} (h0 : R s₀ a₀)
    (hs : ∀ s a i r s', R s a → ok s i → step s i = some (r, s') → ∃ a', spec a i r a' ∧ R s' a')
    {evs : List (ι × ρ)} {s : σ} (h : Run step ok s₀ evs s) : ∃ a, SpecRun spec a₀ evs a ∧ R s a := by
  induction h with
  | nil => exact ⟨a₀, .nil, h0⟩
  | snoc _ hok hst ih =>
    obtain ⟨a, hr, hR⟩ := ih
    obtain ⟨a', hsp, hR'⟩ := hs _ _ _ _ _ hR hok hst
    exact ⟨a', .snoc hr hsp, hR'⟩

/-! ## Along a list of inputs -/

/-- `P` holds in every state that the inputs lead through, up to the first one
that is not allowed. -/
def Throughout (step : σ → ι → Option (ρ × σ)) (ok : σ → ι → Prop) (P : σ → Prop) : σ → List ι → Prop
  | s, [] => P s
  | s, i :: is => P s ∧ (ok s i → ∀ r s', step s i = some (r, s') → Throughout step ok P s' is)

/-- Every input satisfies `Q` in the state it is given, up to the first one that
is not allowed. -/
def Each (step : σ → ι → Option (ρ × σ)) (ok : σ → ι → Prop) (Q : σ → ι → Prop) : σ → List ι → Prop
  | _, [] => True
  | s, i :: is => ok s i → Q s i ∧ ∀ r s', step s i = some (r, s') → Each step ok Q s' is

theorem Throughout.start {P : σ → Prop} {s : σ} {is : List ι} (h : Throughout step ok P s is) : P s := by
  cases is with
  | nil => exact h
  | cons i is => exact h.1

/-- Where each allowed step keeps `P` if and only if its input satisfies `Q`,
`P` holds throughout if and only if every input satisfies `Q`. -/
theorem throughout_iff_each {I P : σ → Prop} {Q : σ → ι → Prop}
    (hs : ∀ s i, I s → P s → ok s i → ∃ r s', step s i = some (r, s') ∧ I s' ∧ (P s' ↔ Q s i)) {s : σ} (hI : I s) (hP : P s)
    (is : List ι) : Throughout step ok P s is ↔ Each step ok Q s is := by
  induction is generalizing s with
  | nil => exact iff_of_true hP trivial
  | cons i is ih =>
    rw [Throughout, Each, and_iff_right hP]
    refine forall_congr' fun hok => ?_
    obtain ⟨r, s', hst, hI', hiff⟩ := hs s i hI hP hok
    constructor
    · intro h
      have hP' := (h r s' hst).start
      refine ⟨hiff.1 hP', fun r₁ s₁ hst₁ => ?_⟩
      rw [hst] at hst₁
      cases hst₁
      exact (ih hI' hP').1 (h r s' hst)
    · rintro ⟨hQ, h⟩ r₁ s₁ hst₁
      rw [hst] at hst₁
      cases hst₁
      exact (ih hI' (hiff.2 hQ)).2 (h r s' hst)

/-! ## Endless runs -/

/-- A rank that never rises falls only finitely often. -/
theorem falls_finitely {α : Type} [Preorder α] [WellFoundedLT α] {f : Nat → α} (hf : ∀ n, f (n + 1) ≤ f n) :
    ∃ N, ∀ n ≥ N, ¬ f (n + 1) < f n := by
  obtain ⟨a, ⟨N, rfl⟩, hmin⟩ := wellFounded_lt.has_min (Set.range f) ⟨f 0, 0, rfl⟩
  have hle : ∀ n ≥ N, f n ≤ f N := by
    intro n hn
    induction n, hn using Nat.le_induction with
    | base => exact le_refl _
    | succ n _ ih => exact le_trans (hf n) ih
  exact ⟨N, fun n hn hlt => hmin (f (n + 1)) ⟨n + 1, rfl⟩ (lt_of_lt_of_le hlt (hle n hn))⟩

end Lib
