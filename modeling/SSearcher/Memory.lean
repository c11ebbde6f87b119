import Mathlib.Tactic.ByContra
set_option autoImplicit false

namespace Memory
variable {α : Type}

def slice (m : Nat → α) (a n : Nat) : List α := (List.range n).map fun i => m (a+i)

def put (m : Nat → α) (a : Nat) (l : List α) : Nat → α := fun i =>
  if i < a then m i else l[i-a]?.getD (m i)

@[simp] theorem length_slice (m : Nat → α) (a n : Nat) : (slice m a n).length = n := by
  simp [slice]

@[simp] theorem slice_zero (m : Nat → α) (a : Nat) : slice m a 0 = [] := rfl

theorem getElem?_slice {m : Nat → α} {a n i : Nat} (h : i < n) :
    (slice m a n)[i]? = some (m (a+i)) := by
  simp [slice,h]

theorem mem_slice {m : Nat → α} {a n : Nat} {x : α} :
    x ∈ slice m a n ↔ ∃ i, i < n ∧ m (a+i) = x := by
  simp [slice]

theorem slice_congr {m m' : Nat → α} {a b n : Nat} (h : ∀ i, i < n → m (a+i) = m' (b+i)) :
    slice m a n = slice m' b n := by
  apply List.map_congr_left
  intro i hi
  exact h i (List.mem_range.mp hi)

theorem slice_add (m : Nat → α) (a n k : Nat) :
    slice m a (n+k) = slice m a n ++ slice m (a+n) k := by
  simp [slice,List.range_add,Nat.add_assoc]

theorem slice_succ (m : Nat → α) (a n : Nat) :
    slice m a (n+1) = slice m a n ++ [m (a+n)] := by
  rw [slice_add]
  rfl

theorem slice_inj {m m' : Nat → α} {a b n : Nat} (h : slice m a n = slice m' b n) {i : Nat}
    (hi : i < n) : m (a+i) = m' (b+i) := by
  have hget := congrArg (fun l => l[i]?) h
  simpa [getElem?_slice hi] using hget

theorem prefix_slice {m : Nat → α} {a n : Nat} {l : List α} :
    l <+: slice m a n ↔ l.length ≤ n ∧ l = slice m a l.length := by
  constructor
  · intro h
    have hle : l.length ≤ n := by simpa using h.length_le
    have hpre : slice m a l.length <+: slice m a n := by
      rw [show n = l.length+(n-l.length) by omega,slice_add]
      exact List.prefix_append _ _
    refine ⟨hle,(List.prefix_of_prefix_length_le h hpre ?_).eq_of_length ?_⟩ <;> simp
  · rintro ⟨hle,h⟩
    rw [h,show n = l.length+(n-l.length) by omega,slice_add]
    simp

theorem put_below {m : Nat → α} {a i : Nat} (l : List α) (h : i < a) : put m a l i = m i := by
  simp [put,h]

theorem put_above {m : Nat → α} {a i : Nat} {l : List α} (h : a+l.length ≤ i) :
    put m a l i = m i := by
  have hnone : l[i-a]? = none := List.getElem?_eq_none (by omega)
  simp [put,hnone]

theorem put_at {m : Nat → α} {a i : Nat} {l : List α} (h : i < l.length) :
    put m a l (a+i) = l[i] := by
  have hlt : ¬ a+i < a := by omega
  simp [put,hlt,h]

@[simp] theorem put_nil (m : Nat → α) (a : Nat) : put m a [] = m := by
  funext i
  simp [put]

theorem put_singleton (m : Nat → α) (a : Nat) (x : α) (i : Nat) :
    put m a [x] i = if i = a then x else m i := by
  rcases Nat.lt_trichotomy i a with h | rfl | h
  · rw [put_below _ h,if_neg (by omega)]
  · simp [put]
  · rw [put_above (by simp; omega),if_neg (by omega)]

theorem slice_put (m : Nat → α) (a : Nat) (l : List α) :
    slice (put m a l) a l.length = l := by
  apply List.ext_getElem
  · simp
  · intro i hi hl
    simp [slice,put_at hl]

theorem slice_put_below {m : Nat → α} {a b n : Nat} (l : List α) (h : b+n ≤ a) :
    slice (put m a l) b n = slice m b n :=
  slice_congr fun _ hi => put_below l (by omega)

theorem slice_put_append {m : Nat → α} {a n : Nat} {l : List α} (h : n = a+l.length) :
    slice (put m a l) 0 n = slice m 0 a ++ l := by
  rw [h,slice_add,slice_put_below l (by omega),Nat.zero_add,slice_put]

theorem put_put_append (m : Nat → α) (a : Nat) (l l' : List α) :
    put (put m a l) (a+l.length) l' = put m a (l ++ l') := by
  funext i
  by_cases h : i < a
  · rw [put_below _ (by omega),put_below _ h,put_below _ h]
  by_cases h' : i < a+l.length
  · simp [put,h,h',List.getElem?_append_left (show i-a < l.length by omega)]
  · have hidx : i-(a+l.length) = i-a-l.length := by omega
    have hnone : l[i-a]? = none := List.getElem?_eq_none (by omega)
    simp [put,h,h',hidx,hnone,List.getElem?_append_right (show l.length ≤ i-a by omega)]

theorem put_comm {m : Nat → α} {a a' : Nat} {l : List α} (l' : List α) (h : a+l.length ≤ a') :
    put (put m a' l') a l = put (put m a l) a' l' := by
  funext i
  by_cases hi : i < a'
  · rw [put_below _ hi]
    by_cases ha : i < a
    · rw [put_below _ ha,put_below _ ha,put_below _ hi]
    · simp only [put,if_neg ha,if_pos hi]
  · rw [put_above (by omega)]
    simp only [put,if_neg hi]
    have hnone : l[i-a]? = none := List.getElem?_eq_none (by omega)
    rw [if_neg (by omega),hnone,Option.getD_none]

theorem slice_eq_append {m : Nat → α} {a n : Nat} {l l' : List α} (h : slice m a n = l ++ l') :
    slice m a l.length = l ∧ slice m (a+l.length) l'.length = l' := by
  have hn : n = l.length+l'.length := by simpa using congrArg List.length h
  rw [hn,slice_add] at h
  exact List.append_inj h (length_slice ..)

theorem takeWhile_slice {P : α → Bool} {c : Nat → α} {a i n : Nat} (hi : i ≤ n)
    (hP : ∀ j, j < i → P (c (a+j)) = true) (hstop : i < n → P (c (a+i)) = false) :
    (slice c a n).takeWhile P = slice c a i := by
  have hn : n = i+(n-i) := by omega
  have hrest : (slice c (a+i) (n-i)).takeWhile P = [] := by
    rcases Nat.eq_or_lt_of_le hi with rfl | hlt
    · simp
    · have hone : n-i = 1+(n-i-1) := by omega
      have hhead : slice c (a+i) 1 = [c (a+i)] := rfl
      rw [hone,slice_add,hhead,List.singleton_append,List.takeWhile_cons,hstop hlt]
      simp
  have hall : ∀ x ∈ slice c a i, P x = true := by
    intro x hx
    obtain ⟨j,hj,rfl⟩ := mem_slice.mp hx
    exact hP j hj
  rw [hn,slice_add,List.takeWhile_append_of_pos hall,hrest,List.append_nil]

/-- The longest run of `P` from an address on, cut at `n`. -/
theorem exists_run (P : α → Bool) (c : Nat → α) (a n : Nat) :
    ∃ i, i ≤ n ∧ (∀ j, j < i → P (c (a+j)) = true) ∧ (i < n → P (c (a+i)) = false) := by
  induction n with
  | zero => exact ⟨0,Nat.le_refl 0,by omega,by omega⟩
  | succ n ih =>
    obtain ⟨i,hi,hP,hstop⟩ := ih
    by_cases hin : i < n
    · exact ⟨i,by omega,hP,fun _ => hstop hin⟩
    obtain rfl : i = n := by omega
    cases hc : P (c (a+i)) with
    | false => exact ⟨i,by omega,hP,fun _ => hc⟩
    | true =>
      refine ⟨i+1,Nat.le_refl _,fun j hj => ?_,by omega⟩
      rcases Nat.lt_succ_iff_lt_or_eq.mp hj with hj | rfl
      · exact hP j hj
      · exact hc

end Memory
