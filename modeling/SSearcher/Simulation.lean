import SSearcher.Ranking
set_option autoImplicit false

/-! One step of a system, taken in several by a finer one. -/
namespace Simulation
open Relation Ranking
variable {A C : Type} {fine : C → C → Prop} {step : A → A → Prop} {R : C → A → Prop}
  {m : C → Nat} {k : Nat} {init a : A} {start x y : C} {rank : A → Nat} {r : C → Nat}

/-- A step of the finer system is not seen or is a step of the other one. -/
def Simulates (fine : C → C → Prop) (step : A → A → Prop) (R : C → A → Prop) : Prop :=
  ∀ x y a, R x a → fine x y → R y a ∨ ∃ b, step a b ∧ R y b

theorem Simulates.run (h : Simulates fine step R) (hR : R x a) (hr : ReflTransGen fine x y) :
    ∃ b, ReflTransGen step a b ∧ R y b := by
  induction hr with
  | refl => exact ⟨a,.refl,hR⟩
  | @tail y z _ hstep ih =>
    obtain ⟨b,hb,hR⟩ := ih
    rcases h y z b hR hstep with hR' | ⟨c,hc,hR'⟩
    · exact ⟨b,hb,hR'⟩
    · exact ⟨c,hb.tail hc,hR'⟩

/-- A step that is not seen lowers `m`, and any other leaves it less than `k` higher. -/
def Paced (fine : C → C → Prop) (step : A → A → Prop) (R : C → A → Prop) (m : C → Nat)
    (k : Nat) : Prop :=
  ∀ x y a, R x a → fine x y → (R y a ∧ m y < m x) ∨ ∃ b, step a b ∧ R y b ∧ m y < m x + k

theorem Paced.simulates (h : Paced fine step R m k) : Simulates fine step R := fun x y a hR hstep =>
  (h x y a hR hstep).imp And.left fun ⟨b,hb,hR,_⟩ => ⟨b,hb,hR⟩

theorem Paced.lowers (h : Paced fine step R m k) (hR : R start init)
    (hlow : Lowers step init rank) (hrank : ∀ x a, R x a → r x = rank a) :
    Lowers fine start fun x => k * r x + m x := by
  intro x y hx hstep
  obtain ⟨a,ha,hRx⟩ := h.simulates.run hR hx
  change k * r y + m y < k * r x + m x
  rcases h x y a hRx hstep with ⟨hRy,hm⟩ | ⟨b,hb,hRy,hm⟩
  · rw [hrank x a hRx,hrank y a hRy]
    exact Nat.add_lt_add_left hm _
  · have hlt : k * rank b + k ≤ k * rank a := Nat.mul_le_mul_left k (hlow a b ha hb)
    rw [hrank x a hRx,hrank y b hRy]
    omega

end Simulation
