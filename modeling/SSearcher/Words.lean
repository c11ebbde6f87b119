import Mathlib.Data.Set.Insert
import Mathlib.Data.List.Infix
import Mathlib.Order.WellFounded
set_option autoImplicit false

namespace Words
variable {α : Type} {S : Set (List α)} {c : α} {t v w : List α}

def after (S : Set (List α)) (c : α) : Set (List α) := {w | c::w ∈ S}

@[simp] theorem mem_after : w ∈ after S c ↔ c::w ∈ S := Iff.rfl

theorem after_insert_self (S : Set (List α)) (c : α) (w : List α) :
    after (insert (c::w) S) c = insert w (after S c) := by
  ext v
  simp [after]

theorem after_insert_ne {d : α} (h : d ≠ c) (S : Set (List α)) (w : List α) :
    after (insert (c::w) S) d = after S d := by
  ext v
  simp [after,h]

structure Shortest (S : Set (List α)) (t w : List α) : Prop where
  mem : w ∈ S
  start : w <+: t
  least : ∀ v, v ∈ S → v <+: t → w.length ≤ v.length

theorem exists_shortest : (∃ w, Shortest S t w) ↔ ∃ w, w ∈ S ∧ w <+: t := by
  constructor
  · rintro ⟨w,hw⟩
    exact ⟨w,hw.mem,hw.start⟩
  · intro h
    let P : Set (List α) := {w | w ∈ S ∧ w <+: t}
    have hne : P.Nonempty := h
    have hw := Function.argminOn_mem List.length P hne
    exact ⟨_,hw.1,hw.2,fun v hv hvt => Function.argminOn_le List.length P (a := v) ⟨hv,hvt⟩⟩

theorem shortest_of_nil_mem (h : [] ∈ S) : Shortest S t w ↔ w = [] := by
  constructor
  · intro hw
    have hle := hw.least [] h List.nil_prefix
    exact List.length_eq_zero_iff.mp (Nat.le_zero.mp hle)
  · rintro rfl
    exact ⟨h,List.nil_prefix,fun _ _ _ => Nat.zero_le _⟩

theorem not_shortest_nil (h : [] ∉ S) : ¬ Shortest S [] w := by
  intro hw
  have hnil := List.prefix_nil.mp hw.start
  exact h (hnil ▸ hw.mem)

theorem shortest_cons (h : [] ∉ S) :
    Shortest S (c::t) w ↔ ∃ v, w = c::v ∧ Shortest (after S c) t v := by
  constructor
  · intro hw
    cases w with
    | nil => exact absurd hw.mem h
    | cons d v =>
      obtain ⟨rfl,hv⟩ := List.cons_prefix_cons.mp hw.start
      refine ⟨v,rfl,hw.mem,hv,fun u hu hut => ?_⟩
      have hle := hw.least (d::u) hu (List.cons_prefix_cons.mpr ⟨rfl,hut⟩)
      simpa using hle
  · rintro ⟨v,rfl,hv⟩
    refine ⟨hv.mem,List.cons_prefix_cons.mpr ⟨rfl,hv.start⟩,fun u hu hut => ?_⟩
    cases u with
    | nil => exact absurd hu h
    | cons d u =>
      obtain ⟨rfl,hsub⟩ := List.cons_prefix_cons.mp hut
      have hle := hv.least u hu hsub
      simpa using hle

end Words
