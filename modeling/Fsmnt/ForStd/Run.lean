import Mathlib.Logic.Basic

/-!
# Properties along a run

A system takes calls one after another, whatever each of them returns. `Along step P calls s` says
that `P` holds of every call of the run from `s`, each together with the state it was made in.
-/

namespace Run

variable {σ γ : Type*} {step : σ → γ → σ} {P Q : σ → γ → Prop} {I : σ → Prop} {calls : List γ}
  {s : σ}

/-- `P` holds at every call of the run. -/
def Along (step : σ → γ → σ) (P : σ → γ → Prop) : List γ → σ → Prop
  | [], _ => True
  | call :: calls, s => P s call ∧ Along step P calls (step s call)

instance instDecidableAlong [∀ s call, Decidable (P s call)] :
    ∀ calls s, Decidable (Along step P calls s)
  | [], _ => .isTrue trivial
  | call :: calls, s =>
    @instDecidableAnd (P s call) (Along step P calls (step s call)) inferInstance
      (instDecidableAlong calls (step s call))

/-- An invariant that every call keeps may be used at every call. -/
theorem along_congr (hstep : ∀ s call, I s → I (step s call))
    (h : ∀ s call, I s → (P s call ↔ Q s call)) (hs : I s) :
    Along step P calls s ↔ Along step Q calls s := by
  induction calls generalizing s with
  | nil => exact Iff.rfl
  | cons call calls ih => exact and_congr (h s call hs) (ih (hstep s call hs))

/-- An invariant that is kept by the calls that meet `Q` may be used in a run where all do. -/
theorem along_of_along (h : ∀ s call, I s → Q s call → P s call ∧ I (step s call)) (hs : I s)
    (hQ : Along step Q calls s) : Along step P calls s := by
  induction calls generalizing s with
  | nil => trivial
  | cons call calls ih =>
    obtain ⟨hcall, hrest⟩ := hQ
    obtain ⟨hP, hI⟩ := h s call hs hcall
    exact ⟨hP, ih hI hrest⟩

/-- An invariant that all the calls of the run keep may be used at each of them. -/
theorem along_of_mem (h : ∀ call ∈ calls, ∀ s, I s → P s call ∧ I (step s call)) (hs : I s) :
    Along step P calls s := by
  induction calls generalizing s with
  | nil => trivial
  | cons call calls ih =>
    obtain ⟨hP, hI⟩ := h call List.mem_cons_self s hs
    exact ⟨hP, ih (fun call' hmem => h call' (List.mem_cons_of_mem call hmem)) hI⟩

end Run
