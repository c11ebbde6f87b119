import Mathlib.Data.List.Iterate
import Mathlib.Data.List.Nodup
import Mathlib.Logic.Function.Basic
set_option autoImplicit false

/-! Circular doubly linked lists. A link is a function from nodes to nodes; a ring is
a pair of links that lead from a head through a list of nodes and back, one in
each direction. -/
namespace Rings
open Function
variable {α : Type} {f g : α → α} {a b n x : α} {xs ys : List α}

/-- From `a`, the link `f` leads through `xs` in order and then to `b`. -/
def Leads (f : α → α) (a : α) (xs : List α) (b : α) : Prop := (a::xs).map f = xs++[b]

@[simp] theorem leads_nil : Leads f a [] b ↔ f a = b := by simp [Leads]

@[simp] theorem leads_cons : Leads f a (x::xs) b ↔ f a = x ∧ Leads f x xs b := by
  simp [Leads]

theorem Leads.congr (h : Leads f a xs b) (hfg : ∀ x, x ∈ a::xs → g x = f x) :
    Leads g a xs b := (List.map_congr_left hfg).trans h

theorem Leads.head (h : Leads f a xs b) : f a = xs.headD b := by
  cases xs with
  | nil => exact leads_nil.mp h
  | cons x xs => exact (leads_cons.mp h).1

theorem Leads.iterate (h : Leads f a xs b) :
    List.iterate f (f a) (xs.length+1) = xs++[b] := by
  induction xs generalizing a with
  | nil => simpa using h
  | cons x xs ih =>
    obtain ⟨rfl,h⟩ := leads_cons.mp h
    rw [List.length_cons,List.iterate,ih h]
    rfl

variable [DecidableEq α]

def linkIn (f : α → α) (n a : α) : α → α := update (update f n (f a)) a n

@[simp] theorem linkIn_self (f : α → α) (n a : α) : linkIn f n a a = n := by simp [linkIn]

theorem linkIn_new (h : n ≠ a) : linkIn f n a n = f a := by simp [linkIn,h]

theorem linkIn_other (ha : x ≠ a) (hn : x ≠ n) : linkIn f n a x = f x := by
  simp [linkIn,ha,hn]

theorem Leads.insert (h : Leads f a (xs++ys) b) (hnodup : (a::(xs++ys)).Nodup)
    (hn : n ∉ a::(xs++ys)) : Leads (linkIn f n (xs.getLastD a)) a (xs++n::ys) b := by
  -- on the nodes in front of the new one, whose links stay
  induction xs generalizing a with
  | nil =>
    have hna : n ≠ a := fun he => hn (he ▸ List.mem_cons_self)
    refine leads_cons.mpr ⟨linkIn_self f n a,?_⟩
    have hrest : ys.map (linkIn f n a) = ys.map f := by
      refine List.map_congr_left fun x hx => linkIn_other ?_ ?_
      · rintro rfl
        exact (List.nodup_cons.mp hnodup).1 hx
      · rintro rfl
        exact hn (List.mem_cons_of_mem _ hx)
    rw [Leads,List.map_cons,List.getLastD_nil,linkIn_new hna,hrest]
    exact h
  | cons x xs ih =>
    obtain ⟨hx,h⟩ := leads_cons.mp h
    obtain ⟨hmem,hnodup⟩ := List.nodup_cons.mp hnodup
    have hlast : xs.getLastD x ∈ x::(xs++ys) :=
      List.mem_append_left ys List.getLastD_mem_cons
    have hne : a ≠ xs.getLastD x := fun he => hmem (he ▸ hlast)
    have hna : a ≠ n := fun he => hn (he ▸ List.mem_cons_self)
    rw [List.getLastD_cons]
    refine leads_cons.mpr ⟨by rw [linkIn_other hne hna,hx],?_⟩
    exact ih h hnodup fun hin => hn (List.mem_cons_of_mem _ hin)

omit [DecidableEq α]

structure Ring (next prev : α → α) (h : α) (xs : List α) : Prop where
  nodup : (h::xs).Nodup
  forward : Leads next h xs h
  backward : Leads prev h xs.reverse h

variable {next prev : α → α} {h : α}

theorem Ring.symm (hr : Ring next prev h xs) : Ring prev next h xs.reverse where
  nodup := by
    obtain ⟨hmem,hnodup⟩ := List.nodup_cons.mp hr.nodup
    exact List.nodup_cons.mpr ⟨by simpa using hmem,List.nodup_reverse.mpr hnodup⟩
  forward := hr.backward
  backward := by
    rw [List.reverse_reverse]
    exact hr.forward

theorem Ring.congr {next' prev' : α → α} (hr : Ring next prev h xs)
    (hn : ∀ x, x ∈ h::xs → next' x = next x) (hp : ∀ x, x ∈ h::xs → prev' x = prev x) :
    Ring next' prev' h xs where
  nodup := hr.nodup
  forward := hr.forward.congr hn
  backward := hr.backward.congr fun x hx => hp x (by simpa using hx)

theorem Ring.prev_next (hr : Ring next prev h xs) (hx : x ∈ h::xs) : prev (next x) = x := by
  have hback : (xs++[h]).map prev = h::xs := by
    have h' := congrArg List.reverse hr.backward
    simpa [Leads] using h'
  have hmap : (h::xs).map (prev ∘ next) = (h::xs).map id := by
    rw [← List.map_map,hr.forward,hback,List.map_id]
  exact List.map_inj_left.mp hmap x hx

/-- Each node is the neighbour of its neighbours. -/
theorem Ring.inverse (hr : Ring next prev h xs) (hx : x ∈ h::xs) :
    prev (next x) = x ∧ next (prev x) = x :=
  ⟨hr.prev_next hx,hr.symm.prev_next (by simpa using hx)⟩

theorem Ring.next_mem (hr : Ring next prev h xs) (hx : x ∈ h::xs) : next x ∈ h::xs := by
  have hmem : next x ∈ (h::xs).map next := List.mem_map_of_mem hx
  rw [hr.forward] at hmem
  simpa [or_comm] using hmem

theorem ring_nil (hn : next h = h) (hp : prev h = h) : Ring next prev h [] :=
  ⟨List.nodup_singleton h,leads_nil.mpr hn,leads_nil.mpr hp⟩

variable [DecidableEq α]

theorem Ring.addFront (hr : Ring next prev h xs) (hn : n ∉ h::xs) :
    Ring (linkIn next n h) (linkIn prev n (next h)) h (n::xs) where
  nodup := by
    obtain ⟨hmem,hnodup⟩ := List.nodup_cons.mp hr.nodup
    obtain ⟨hne,hnot⟩ := not_or.mp fun h' => hn (List.mem_cons.mpr h')
    simp [hmem,hnodup,hnot,Ne.symm hne]
  forward := by
    have hfront : Leads next h ([]++xs) h := hr.forward
    exact hfront.insert hr.nodup hn
  backward := by
    have hlast : next h = xs.reverse.getLastD h := by
      rw [hr.forward.head]
      cases xs <;> simp
    have hback : Leads prev h (xs.reverse++[]) h := by
      rw [List.append_nil]
      exact hr.backward
    have hnodup : (h::(xs.reverse++[])).Nodup := by
      rw [List.append_nil]
      exact hr.symm.nodup
    rw [hlast,List.reverse_cons]
    exact hback.insert hnodup (by simpa using hn)

theorem Ring.addBack (hr : Ring next prev h xs) (hn : n ∉ h::xs) :
    Ring (linkIn next n (prev h)) (linkIn prev n h) h (xs++[n]) := by
  have hback := (hr.symm.addFront (n := n) (by simpa using hn)).symm
  simpa using hback

end Rings
