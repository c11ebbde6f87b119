import Mathlib.Algebra.BigOperators.Group.Finset.Basic
import Mathlib.Algebra.Order.Group.Multiset
import Mathlib.Data.Multiset.Fold
import Mathlib.Data.Set.Card
set_option autoImplicit false

/-! Custody of resources behind reusable keys. A resource is opened under a free
key, the pair is handed from holder to holder, and the key is closed by one of them. -/
namespace Custody
variable {K I : Type}

/-- `table` tells what a key stands for. -/
structure Ledger (K I : Type) where
  held : Multiset (K × I)
  table : K → Option I
  opened : Multiset I
  closed : Multiset I

/-- Every pair held is up to date, and every resource opened is held once or closed once. -/
structure Sound (L : Ledger K I) : Prop where
  current : ∀ r, r ∈ L.held → L.table r.1 = some r.2
  balance : L.held.map Prod.snd + L.closed = L.opened
  nodup : L.opened.Nodup

variable {L L' : Ledger K I}

theorem sound_init : Sound (⟨0,fun _ => none,0,0⟩ : Ledger K I) :=
  ⟨by simp,by simp,Multiset.nodup_zero⟩

theorem Sound.nodup_held (h : Sound L) : (L.held.map Prod.snd).Nodup :=
  Multiset.nodup_of_le (h.balance ▸ Multiset.le_add_right _ _) h.nodup

theorem Sound.settled [DecidableEq I] (h : Sound L) (hheld : L.held = 0) {i : I}
    (hi : i ∈ L.opened) : L.closed.count i = 1 := by
  have hbal := h.balance
  rw [hheld,Multiset.map_zero,zero_add] at hbal
  rw [hbal]
  exact Multiset.count_eq_one_of_mem h.nodup hi

theorem Sound.apart {r r' : K × I} {rest : Multiset (K × I)} (h : Sound L)
    (hr : L.held = r ::ₘ rest) (hr' : r' ∈ rest) : r'.1 ≠ r.1 := by
  intro hk
  have hcur := h.current r (by simp [hr])
  have hcur' := h.current r' (by simp [hr,hr'])
  have heq : r'.2 = r.2 := Option.some.inj (by rw [← hcur',← hcur,hk])
  have hnodup := h.nodup_held
  rw [hr,Multiset.map_cons,Multiset.nodup_cons] at hnodup
  exact hnodup.1 (heq ▸ Multiset.mem_map_of_mem Prod.snd hr')

variable [DecidableEq K]

def closeKey (table : K → Option I) (k : K) : K → Option I := Function.update table k none

inductive Move (L L' : Ledger K I) : Prop where
  | stay : L' = L → Move L L'
  | take (k : K) (i : I) : L.table k = none → i ∉ L.opened →
      L' = ⟨(k,i) ::ₘ L.held,Function.update L.table k (some i),i ::ₘ L.opened,L.closed⟩ →
      Move L L'
  | drop (r : K × I) : L.held = r ::ₘ L'.held → L'.table = closeKey L.table r.1 →
      L'.opened = L.opened → L'.closed = Multiset.ofList (L.table r.1).toList + L.closed →
      Move L L'

theorem Sound.take {k : K} {i : I} (h : Sound L) (hk : L.table k = none) (hi : i ∉ L.opened) :
    Sound ⟨(k,i) ::ₘ L.held,Function.update L.table k (some i),i ::ₘ L.opened,L.closed⟩ := by
  refine ⟨fun r hr => ?_,?_,Multiset.nodup_cons.mpr ⟨hi,h.nodup⟩⟩
  · rcases Multiset.mem_cons.mp hr with rfl | hr
    · exact Function.update_self ..
    · have hcur := h.current r hr
      have hne : r.1 ≠ k := by
        rintro rfl
        rw [hk] at hcur
        cases hcur
      exact (Function.update_of_ne hne ..).trans hcur
  · simp only [Multiset.map_cons,Multiset.cons_add,h.balance]

theorem Sound.drop {r : K × I} (h : Sound L) (hr : L.held = r ::ₘ L'.held)
    (ht : L'.table = closeKey L.table r.1) (ho : L'.opened = L.opened)
    (hc : L'.closed = Multiset.ofList (L.table r.1).toList + L.closed) : Sound L' := by
  refine ⟨fun r' hr' => ?_,?_,ho ▸ h.nodup⟩
  · have hne := h.apart hr hr'
    rw [ht,closeKey,Function.update_of_ne hne]
    exact h.current r' (by simp [hr,hr'])
  · have hcur := h.current r (by simp [hr])
    have hbal := h.balance
    rw [hr,Multiset.map_cons] at hbal
    rw [hc,hcur,ho,← hbal]
    simp [Multiset.add_cons,Multiset.cons_add]

theorem Sound.move (h : Sound L) (hm : Move L L') : Sound L' := by
  cases hm with
  | stay he => exact he ▸ h
  | take k i hk hi he => exact he ▸ h.take hk hi
  | drop r hr ht ho hc => exact h.drop hr ht ho hc

/-- Whatever is open is held. -/
def Covered (L : Ledger K I) : Prop := ∀ k i, L.table k = some i → (k,i) ∈ L.held

theorem Covered.move (h : Covered L) (hm : Move L L') : Covered L' := by
  cases hm with
  | stay he => exact he ▸ h
  | take k i _ _ he =>
    subst he
    intro k' i' (hk' : Function.update L.table k (some i) k' = some i')
    by_cases hk : k' = k
    · subst hk
      rw [Function.update_self] at hk'
      exact Multiset.mem_cons.mpr (.inl (by rw [Option.some.inj hk']))
    · rw [Function.update_of_ne hk] at hk'
      exact Multiset.mem_cons_of_mem (h k' i' hk')
  | drop r hr ht _ _ =>
    intro k i hk
    rw [ht,closeKey] at hk
    have hne : k ≠ r.1 := by
      rintro rfl
      rw [Function.update_self] at hk
      cases hk
    rw [Function.update_of_ne hne] at hk
    have hmem := h k i hk
    rw [hr] at hmem
    rcases Multiset.mem_cons.mp hmem with rfl | hmem
    · exact absurd rfl hne
    · exact hmem

theorem encard_open (h : Sound L) (hc : Covered L) :
    {k | L.table k ≠ none}.encard = Multiset.card L.held := by
  have hkeys : (L.held.map Prod.fst).Nodup := by
    refine h.nodup_held.of_map.map_on fun r hr r' hr' hk => Prod.ext hk ?_
    have hcur := h.current r hr
    rw [hk,h.current r' hr'] at hcur
    exact (Option.some.inj hcur).symm
  have hopen : {k | L.table k ≠ none} = ↑(L.held.map Prod.fst).toFinset := by
    ext k
    change L.table k ≠ none ↔ _
    rw [Finset.mem_coe,Multiset.mem_toFinset,Multiset.mem_map]
    constructor
    · intro hk
      obtain ⟨i,hi⟩ := Option.ne_none_iff_exists'.mp hk
      exact ⟨(k,i),hc k i hi,rfl⟩
    · rintro ⟨r,hr,rfl⟩
      rw [h.current r hr]
      exact Option.some_ne_none _
  rw [hopen,Set.encard_coe_eq_coe_finsetCard,Multiset.toFinset_card_of_nodup hkeys,
    Multiset.card_map]

theorem sum_update {W S M : Type} [Fintype W] [DecidableEq W] [AddCommMonoid M] (f : S → M)
    (g : W → S) (w : W) (x : S) :
    (∑ i, f (Function.update g w x i)) + f (g w) = (∑ i, f (g i)) + f x := by
  have hrest : ∑ i ∈ Finset.univ.erase w, f (Function.update g w x i) =
      ∑ i ∈ Finset.univ.erase w, f (g i) :=
    Finset.sum_congr rfl fun i hi => by rw [Function.update_of_ne (Finset.ne_of_mem_erase hi)]
  rw [← Finset.sum_erase_add _ _ (Finset.mem_univ w),← Finset.sum_erase_add _ _ (Finset.mem_univ w),
    hrest,Function.update_self,add_assoc,add_assoc,add_comm (f x)]

end Custody
