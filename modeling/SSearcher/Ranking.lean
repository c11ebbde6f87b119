import Mathlib.Logic.Relation
set_option autoImplicit false

namespace Ranking
open Relation
variable {S : Type} {step : S → S → Prop}

def IsRun (step : S → S → Prop) (n : Nat) (run : Nat → S) : Prop :=
  ∀ i, i < n → step (run i) (run (i+1))

def Final (step : S → S → Prop) (s : S) : Prop := ∀ s', ¬ step s s'

/-- Every step from a state that can be reached lowers the rank. -/
def Lowers (step : S → S → Prop) (init : S) (rank : S → Nat) : Prop :=
  ∀ s s', ReflTransGen step init s → step s s' → rank s' < rank s

variable {init : S} {rank : S → Nat} {n : Nat} {run : Nat → S}

theorem IsRun.reaches (h : IsRun step n run) {i : Nat} (hi : i ≤ n) :
    ReflTransGen step (run 0) (run i) := by
  induction i with
  | zero => exact .refl
  | succ i ih => exact (ih (by omega)).tail (h i (by omega))

theorem Lowers.spent (h : Lowers step init rank) (hrun : IsRun step n run) (h0 : run 0 = init)
    {i : Nat} (hi : i ≤ n) : rank (run i) + i ≤ rank init := by
  induction i with
  | zero => exact Nat.le_of_eq (congrArg rank h0)
  | succ i ih =>
    have hlt := h _ _ (h0 ▸ hrun.reaches (by omega)) (hrun i (by omega))
    have hle := ih (by omega)
    omega

theorem Lowers.run_le (h : Lowers step init rank) (hrun : IsRun step n run)
    (h0 : run 0 = init) : n ≤ rank init :=
  Nat.le_trans (Nat.le_add_left _ _) (h.spent hrun h0 (Nat.le_refl n))

theorem Lowers.exists_final (h : Lowers step init rank) {s : S}
    (hs : ReflTransGen step init s) : ∃ s', ReflTransGen step s s' ∧ Final step s' := by
  induction hr : rank s using Nat.strongRecOn generalizing s with
  | ind r ih =>
    by_cases hfinal : Final step s
    · exact ⟨s,.refl,hfinal⟩
    · obtain ⟨s₁,hstep⟩ := Classical.not_forall_not.mp hfinal
      obtain ⟨s',hreach,hfin⟩ := ih (rank s₁) (hr ▸ h s s₁ hs hstep) (hs.tail hstep) rfl
      exact ⟨s',hreach.head hstep,hfin⟩

end Ranking
