import SSearcher.Matching
set_option autoImplicit false

/-! Occurrences taken from left to right without overlap: what a naive search that goes
on behind each match reports. -/
namespace Matching
variable {α : Type} {p t : Nat → α} {m n : Nat}

/-- From `start` on, each time the first occurrence behind the last one. -/
inductive Greedy (p t : Nat → α) (m n : Nat) : Nat → List Nat → Prop where
  | done {start : Nat} : (∀ q, start ≤ q → q+m ≤ n → ¬ Occurs p t m q) →
      Greedy p t m n start []
  | next {start q : Nat} {l : List Nat} : start ≤ q → q+m ≤ n → Occurs p t m q →
      (∀ q', start ≤ q' → q' < q → ¬ Occurs p t m q') → Greedy p t m n (q+m) l →
      Greedy p t m n start (q :: l)

def FirstFrom (p t : Nat → α) (m n start q : Nat) : Prop :=
  start ≤ q ∧ q+m ≤ n ∧ Occurs p t m q ∧ ∀ q', start ≤ q' → q' < q → ¬ Occurs p t m q'

variable {start q : Nat} {l l' : List Nat}

theorem greedy_nil : Greedy p t m n start [] ↔ ∀ q, start ≤ q → q+m ≤ n → ¬ Occurs p t m q := by
  constructor
  · intro h
    cases h with
    | done hno => exact hno
  · exact .done

theorem greedy_cons : Greedy p t m n start (q :: l) ↔
    FirstFrom p t m n start q ∧ Greedy p t m n (q+m) l := by
  constructor
  · intro h
    cases h with
    | next hle hn ho hno hl => exact ⟨⟨hle,hn,ho,hno⟩,hl⟩
  · rintro ⟨⟨hle,hn,ho,hno⟩,hl⟩
    exact .next hle hn ho hno hl

theorem FirstFrom.unique {q' : Nat} (h : FirstFrom p t m n start q)
    (h' : FirstFrom p t m n start q') : q = q' := by
  have key : ∀ {a b : Nat}, FirstFrom p t m n start a → FirstFrom p t m n start b → ¬ a < b :=
    fun ha hb hlt => hb.2.2.2 _ ha.1 hlt ha.2.2.1
  have := key h h'
  have := key h' h
  omega

theorem Greedy.unique (h : Greedy p t m n start l) (h' : Greedy p t m n start l') : l = l' := by
  induction h generalizing l' with
  | done hno =>
    cases l' with
    | nil => rfl
    | cons q l' =>
      obtain ⟨hle,hn,ho,-⟩ := (greedy_cons.mp h').1
      exact absurd ho (hno q hle hn)
  | next hle hn ho hno _ ih =>
    cases l' with
    | nil => exact absurd ho (greedy_nil.mp h' _ hle hn)
    | cons q' l' =>
      obtain ⟨hfirst,hl⟩ := greedy_cons.mp h'
      obtain rfl := FirstFrom.unique ⟨hle,hn,ho,hno⟩ hfirst
      rw [ih hl]

/-- No choice of occurrences without overlap has more of them. -/
theorem Greedy.most (h : Greedy p t m n start l)
    (hmem : ∀ q, q ∈ l' → start ≤ q ∧ q+m ≤ n ∧ Occurs p t m q)
    (hapart : l'.Pairwise fun q q' => q+m ≤ q') : l'.length ≤ l.length := by
  induction h generalizing l' with
  | done hno =>
    cases l' with
    | nil => exact Nat.le_refl 0
    | cons q l' =>
      obtain ⟨hle,hn,ho⟩ := hmem q List.mem_cons_self
      exact absurd ho (hno q hle hn)
  | @next start q l hle hn ho hno _ ih =>
    cases l' with
    | nil => exact Nat.zero_le _
    | cons q' l' =>
      obtain ⟨hle',-,ho'⟩ := hmem q' List.mem_cons_self
      obtain ⟨hhead,htail⟩ := List.pairwise_cons.mp hapart
      have hge : q ≤ q' := by
        by_contra hlt
        exact hno q' hle' (by omega) ho'
      refine Nat.succ_le_succ (ih (fun x hx => ?_) htail)
      obtain ⟨-,hxn,hxo⟩ := hmem x (List.mem_cons_of_mem _ hx)
      have := hhead x hx
      exact ⟨by omega,hxn,hxo⟩

theorem Greedy.back {start' : Nat} (hle : start ≤ start')
    (hno : ∀ q, start ≤ q → q < start' → q+m ≤ n → ¬ Occurs p t m q)
    (h : Greedy p t m n start' l) : Greedy p t m n start l := by
  have hstart : ∀ q, start ≤ q → q+m ≤ n → Occurs p t m q → start' ≤ q := fun q hq hn ho => by
    by_contra hlt
    exact hno q hq (Nat.lt_of_not_le hlt) hn ho
  cases l with
  | nil => exact .done fun q hq hn ho => greedy_nil.mp h q (hstart q hq hn ho) hn ho
  | cons q l =>
    obtain ⟨⟨hq,hn,ho,hfirst⟩,hl⟩ := greedy_cons.mp h
    refine .next (Nat.le_trans hle hq) hn ho (fun q' hq' hlt ho' => ?_) hl
    exact hfirst q' (hstart q' hq' (by omega) ho') hlt ho'

theorem Greedy.mem (h : Greedy p t m n start l) (hq : q ∈ l) : q+m ≤ n ∧ Occurs p t m q := by
  induction h with
  | done => cases hq
  | next _ hn ho _ _ ih =>
    rcases List.mem_cons.mp hq with rfl | hq
    · exact ⟨hn,ho⟩
    · exact ih hq

theorem Greedy.congr {t' : Nat → α} (ht : ∀ i, i < n → t i = t' i) (h : Greedy p t m n start l) :
    Greedy p t' m n start l := by
  have hoccurs : ∀ q, q+m ≤ n → (Occurs p t m q ↔ Occurs p t' m q) := fun q hq =>
    forall₂_congr fun i hi => by rw [ht (q+i) (by omega)]
  induction h with
  | done hno => exact .done fun q hle hq ho => hno q hle hq ((hoccurs q hq).mpr ho)
  | next hle hn ho hno _ ih =>
    refine .next hle hn ((hoccurs _ hn).mp ho) (fun q' hle' hlt ho' => ?_) ih
    exact hno q' hle' hlt ((hoccurs q' (by omega)).mpr ho')

/-- If no occurrence reaches over the place `a`, the text is searched before `a` and then
behind it. -/
theorem Greedy.append {a : Nat} (ha : a < n)
    (hcut : ∀ q, q ≤ a → Occurs p t m q → q+m ≤ a) (h : Greedy p t m a start l)
    (hstart : start ≤ a+1) (h' : Greedy p t m n (a+1) l') : Greedy p t m n start (l++l') := by
  induction h with
  | done hno =>
    exact h'.back hstart fun q hle hlt _ ho => hno q hle (hcut q (by omega) ho) ho
  | next hle hn ho hno _ ih => exact .next hle (by omega) ho hno (ih (by omega))

variable [DecidableEq α]

instance (p t : Nat → α) (m q : Nat) : Decidable (Occurs p t m q) :=
  inferInstanceAs (Decidable (∀ i, i < m → t (q+i) = p i))

/-- The naive search of the `k` places from `q` on, the first `wait` of which lie in the
match before. -/
def occurrencesFrom (p t : Nat → α) (m : Nat) : Nat → Nat → Nat → List Nat
  | 0,_,_ => []
  | k+1,q,wait+1 => occurrencesFrom p t m k (q+1) wait
  | k+1,q,0 =>
    if Occurs p t m q then q :: occurrencesFrom p t m k (q+1) (m-1)
    else occurrencesFrom p t m k (q+1) 0

def occurrences (p t : Nat → α) (m n : Nat) : List Nat := occurrencesFrom p t m (n+1-m) 0 0

theorem occurrencesFrom_greedy (hm : 0 < m) {k q wait : Nat} (hk : q+k = n+1-m) :
    Greedy p t m n (q+wait) (occurrencesFrom p t m k q wait) := by
  induction k generalizing q wait with
  | zero => exact .done fun q' hle hq' => by omega
  | succ k ih =>
    cases wait with
    | succ wait =>
      have hidx : q+(wait+1) = q+1+wait := by omega
      rw [hidx]
      exact ih (by omega)
    | zero =>
      rw [occurrencesFrom]
      split
      · rename_i ho
        have hnext := @ih (q+1) (m-1) (by omega)
        have hidx : q+1+(m-1) = q+m := by omega
        rw [hidx] at hnext
        exact .next (Nat.le_refl q) (by omega) ho (fun q' hle hlt => by omega) hnext
      · rename_i hno
        refine (@ih (q+1) 0 (by omega)).back (Nat.le_succ q) fun q' hle hlt _ ho => hno ?_
        obtain rfl : q = q' := by omega
        exact ho

theorem greedy_occurrences (hm : 0 < m) : Greedy p t m n 0 (occurrences p t m n) :=
  @occurrencesFrom_greedy _ _ _ _ _ _ hm _ 0 0 (Nat.zero_add _)

theorem greedy_iff (hm : 0 < m) : Greedy p t m n 0 l ↔ l = occurrences p t m n := by
  constructor
  · intro h
    exact h.unique (greedy_occurrences hm)
  · rintro rfl
    exact greedy_occurrences hm

example : occurrences (fun _ => 1) (fun i => [1,1,1,0,1,1].getD i 0) 2 6 = [0,4] := by decide

end Matching
