import Mathlib.Tactic.ByContra
set_option autoImplicit false

/-! Borders of a word, and matchers that try one border before they start over.
Words are functions on indices; a length travels with them where it matters. -/
namespace Matching
variable {α : Type} {p t : Nat → α}

/-- The first `k` symbols of `p` end at index `j` of `t`. -/
def Agree (p t : Nat → α) (j k : Nat) : Prop := k ≤ j ∧ ∀ i, i < k → t (j-k+i) = p i

def Occurs (p t : Nat → α) (m q : Nat) : Prop := ∀ i, i < m → t (q+i) = p i

/-- The first `b` symbols of `p` are also the last `b` of its first `k`, and fewer. -/
def Border (p : Nat → α) (k b : Nat) : Prop := b < k ∧ Agree p p k b

theorem Agree.zero (p t : Nat → α) (j : Nat) : Agree p t j 0 := ⟨Nat.zero_le j,by omega⟩

theorem Agree.succ {j k : Nat} (h : Agree p t j k) (hc : t j = p k) :
    Agree p t (j+1) (k+1) := by
  obtain ⟨hk,ha⟩ := h
  refine ⟨by omega,fun i hi => ?_⟩
  have hidx : j+1-(k+1)+i = j-k+i := by omega
  rw [hidx]
  rcases Nat.lt_succ_iff_lt_or_eq.mp hi with hi | rfl
  · exact ha i hi
  · rw [← hc]
    congr 1
    omega

theorem Agree.border {j k b : Nat} (h : Agree p t j k) (hb : Border p k b) :
    Agree p t j b := by
  obtain ⟨hk,ha⟩ := h
  obtain ⟨hlt,-,hs⟩ := hb
  refine ⟨by omega,fun i hi => ?_⟩
  have hidx : j-b+i = j-k+(k-b+i) := by omega
  rw [hidx,ha _ (by omega),hs i hi]

theorem Agree.border_of_lt {j k b : Nat} (h : Agree p t j k) (hb : Agree p t j b)
    (hlt : b < k) : Border p k b := by
  obtain ⟨hk,ha⟩ := h
  refine ⟨hlt,by omega,fun i hi => ?_⟩
  have hidx : j-k+(k-b+i) = j-b+i := by omega
  rw [← ha (k-b+i) (by omega),hidx,hb.2 i hi]

theorem Agree.occurs {j m : Nat} (h : Agree p t j m) : Occurs p t m (j-m) := h.2

theorem Occurs.agree {m q j : Nat} (h : Occurs p t m q) (hq : q ≤ j) (hj : j ≤ q+m) :
    Agree p t j (j-q) := by
  refine ⟨by omega,fun i hi => ?_⟩
  have hidx : j-(j-q)+i = q+i := by omega
  rw [hidx,h i (by omega)]

theorem border_zero {k : Nat} (h : 0 < k) : Border p k 0 := ⟨h,.zero p p k⟩

theorem Border.succ {k b : Nat} (h : Border p k b) (hc : p b = p k) :
    Border p (k+1) (b+1) := ⟨Nat.succ_lt_succ h.1,h.2.succ hc.symm⟩

theorem Border.pred {k b : Nat} (h : Border p (k+1) (b+1)) : Border p k b ∧ p b = p k := by
  obtain ⟨hlt,-,ha⟩ := h
  have hidx : k+1-(b+1) = k-b := by omega
  rw [hidx] at ha
  refine ⟨⟨by omega,by omega,fun i hi => ha i (by omega)⟩,?_⟩
  rw [← ha b (by omega),Nat.sub_add_cancel (by omega)]

/-- The failure function of Knuth, Morris and Pratt, as a relation. -/
def LongestBorder (p : Nat → α) (k b : Nat) : Prop := Border p k b ∧ ∀ c, Border p k c → c ≤ b

theorem LongestBorder.unique {k b c : Nat} (hb : LongestBorder p k b)
    (hc : LongestBorder p k c) : b = c := Nat.le_antisymm (hc.2 b hb.1) (hb.2 c hc.1)

def LongestGoesOn (p : Nat → α) (k : Nat) : Prop :=
  ∀ b c, LongestBorder p k b → Border p k c → p c = p k → p b = p k

theorem longestBorder_one (p : Nat → α) : LongestBorder p 1 0 :=
  ⟨border_zero (by omega),fun c hc => Nat.le_of_lt_succ hc.1⟩

theorem LongestBorder.succ {k b : Nat} (h : LongestBorder p k b) (hc : p b = p k) :
    LongestBorder p (k+1) (b+1) := by
  refine ⟨h.1.succ hc,fun c hb => ?_⟩
  cases c with
  | zero => exact Nat.zero_le _
  | succ c => exact Nat.succ_le_succ (h.2 c hb.pred.1)

variable [DecidableEq α]

/-- Match a word against its own tail, starting over after every mismatch:
the length matched when the first `k` symbols have been read. -/
def selfRun (p : Nat → α) : Nat → Nat
  | 0 | 1 => 0
  | k+2 => if p (selfRun p (k+1)) = p (k+1) then selfRun p (k+1) + 1 else 0

theorem selfRun_succ (p : Nat → α) {k : Nat} (h : 0 < k) :
    selfRun p (k+1) = if p (selfRun p k) = p k then selfRun p k + 1 else 0 := by
  obtain ⟨k,rfl⟩ : ∃ i, k = i+1 := ⟨k-1,by omega⟩
  rfl

theorem selfRun_border (p : Nat → α) {k : Nat} (h : 0 < k) : Border p k (selfRun p k) := by
  induction k with
  | zero => omega
  | succ k ih =>
    cases k with
    | zero => exact border_zero (by omega)
    | succ k =>
      obtain ⟨hlt,ha⟩ := ih (by omega)
      rw [selfRun_succ p (by omega)]
      split
      · rename_i hc
        exact Border.succ ⟨hlt,ha⟩ hc
      · exact border_zero (by omega)

theorem selfRun_longest_succ {k : Nat} (hk : 0 < k) (h : LongestBorder p k (selfRun p k)) :
    LongestBorder p (k+1) (selfRun p (k+1)) ↔ LongestGoesOn p k := by
  rw [selfRun_succ p hk]
  constructor
  · intro hnext b c hb hc hpc
    obtain rfl := hb.unique h
    by_contra hne
    rw [if_neg hne] at hnext
    exact Nat.not_succ_le_zero c (hnext.2 _ (hc.succ hpc))
  · intro hgo
    split
    · rename_i hc
      exact h.succ hc
    · rename_i hne
      refine ⟨border_zero (by omega),fun c hb => ?_⟩
      cases c with
      | zero => exact Nat.le_refl 0
      | succ c => exact absurd (hgo _ c h hb.pred.1 hb.pred.2) hne

/-- Starting over after every mismatch computes the longest borders exactly when no
shorter border was worth trying. -/
theorem selfRun_longest_iff (p : Nat → α) (m : Nat) :
    (∀ i, i < m → LongestBorder p (i+1) (selfRun p (i+1))) ↔
      ∀ k, 0 < k → k < m → LongestGoesOn p k := by
  constructor
  · intro h k hk hkm
    have hlast := h (k-1) (by omega)
    rw [Nat.sub_add_cancel hk] at hlast
    exact (selfRun_longest_succ hk hlast).mp (h k hkm)
  · intro h i hi
    induction i with
    | zero => exact longestBorder_one p
    | succ i ih => exact (selfRun_longest_succ (by omega) (ih (by omega))).mpr (h _ (by omega) hi)

/-- One symbol read with `k` symbols matched. On a mismatch the matcher tries the
prefix of length `f k` and then the empty one, and no other. -/
def advance (p : Nat → α) (f : Nat → Nat) (k : Nat) (c : α) : Nat :=
  if p k = c then k+1
  else if k = 0 then 0
  else if p (f k) = c then f k + 1
  else if p 0 = c then 1
  else 0

def StartsOver (p : Nat → α) (f : Nat → Nat) (k : Nat) (c : α) : Prop :=
  p k ≠ c ∧ k ≠ 0 ∧ p (f k) ≠ c ∧ f k ≠ 0

instance (p : Nat → α) (f : Nat → Nat) (k : Nat) (c : α) : Decidable (StartsOver p f k c) :=
  inferInstanceAs (Decidable (p k ≠ c ∧ k ≠ 0 ∧ p (f k) ≠ c ∧ f k ≠ 0))

def stand (p : Nat → α) (f : Nat → Nat) (t : Nat → α) : Nat → Nat
  | 0 => 0
  | j+1 => advance p f (stand p f t j) (t j)

/-- Border `b` of the first `k` symbols, should the next symbol be `p b`, is
forgotten: the prefix tried first is shorter or goes on with another symbol. -/
def Lossy (p : Nat → α) (f : Nat → Nat) (k b : Nat) : Prop :=
  0 < b ∧ Border p k b ∧ p b ≠ p k ∧ ¬ (b ≤ f k ∧ p (f k) = p b)

variable {f : Nat → Nat}

theorem advance_le (p : Nat → α) {f : Nat → Nat} (hf : ∀ k, 0 < k → f k < k)
    (k : Nat) (c : α) : advance p f k c ≤ k+1 := by
  unfold advance
  split
  · exact Nat.le_refl _
  split
  · omega
  · have h := hf k (by omega)
    split
    · omega
    split <;> omega

theorem Agree.advance {j k : Nat} (hf : ∀ k, 0 < k → Border p k (f k))
    (h : Agree p t j k) : Agree p t (j+1) (advance p f k (t j)) := by
  unfold Matching.advance
  split
  · rename_i hc
    exact h.succ hc.symm
  split
  · exact .zero p t _
  split
  · rename_i hk hc
    exact (h.border (hf k (by omega))).succ hc.symm
  split
  · rename_i hc
    exact (Agree.zero p t j).succ hc.symm
  · exact .zero p t _

theorem stand_agree (hf : ∀ k, 0 < k → Border p k (f k)) (j : Nat) :
    Agree p t j (stand p f t j) := by
  induction j with
  | zero => exact .zero p t 0
  | succ j ih => exact ih.advance hf

theorem stand_start_mono (hf : ∀ k, 0 < k → f k < k) {i j : Nat} (hij : i ≤ j) :
    stand p f t j + i ≤ stand p f t i + j := by
  induction hij with
  | refl => exact Nat.le_refl _
  | @step j _ ih =>
    have h := advance_le p hf (stand p f t j) (t j)
    simp only [stand]
    omega

theorem le_advance {k b : Nat} (hb : b = k ∨ Border p k b) (hl : ¬ Lossy p f k b) :
    b+1 ≤ advance p f k (p b) := by
  unfold advance
  rcases hb with rfl | hb
  · simp
  split
  · have := hb.1
    omega
  rename_i hne
  split
  · have := hb.1
    omega
  by_cases h0 : b = 0
  · subst h0
    split <;> simp
  have hkeep : b ≤ f k ∧ p (f k) = p b := by
    by_contra hno
    exact hl ⟨by omega,hb,Ne.symm hne,hno⟩
  rw [if_pos hkeep.2]
  omega

theorem Lossy.advance_le {k b : Nat} (h : Lossy p f k b) : advance p f k (p b) ≤ b := by
  obtain ⟨hb,hbor,hne,hno⟩ := h
  unfold advance
  rw [if_neg (Ne.symm hne),if_neg (by have := hbor.1; omega)]
  split
  · rename_i hc
    by_contra hlt
    exact hno ⟨by omega,hc⟩
  · split <;> omega

def Searching (p : Nat → α) (f : Nat → Nat) (t : Nat → α) (m j : Nat) : Prop :=
  ∀ i, i ≤ j → stand p f t i < m

/-- The matcher drops an occurrence: reading index `j` it forgets a border whose
occurrence of the whole word lies inside the text. -/
def Drops (p : Nat → α) (f : Nat → Nat) (t : Nat → α) (m n : Nat) : Prop :=
  ∃ j b, Searching p f t m j ∧ Lossy p f (stand p f t j) b ∧ t j = p b ∧
    Occurs p t m (j-b) ∧ j-b+m ≤ n

/-- The matcher ends in a match no later than any occurrence. -/
def Finds (p : Nat → α) (f : Nat → Nat) (t : Nat → α) (m n : Nat) : Prop :=
  ∀ q, q+m ≤ n → Occurs p t m q →
    ∃ j, j+1 ≤ q+m ∧ Searching p f t m j ∧ stand p f t (j+1) = m

theorem Searching.mono {m i j : Nat} (h : Searching p f t m j) (hij : i ≤ j) :
    Searching p f t m i := fun k hk => h k (by omega)

theorem Searching.succ {m j : Nat} (h : Searching p f t m j)
    (hs : stand p f t (j+1) < m) : Searching p f t m (j+1) := by
  intro i hi
  rcases Nat.lt_succ_iff_lt_or_eq.mp (Nat.lt_succ_of_le hi) with hi | rfl
  · exact h i (by omega)
  · exact hs

theorem searching_or_found (hf : ∀ k, 0 < k → f k < k) {m : Nat} (hm : 0 < m) (j : Nat) :
    Searching p f t m j ∨
      ∃ i, i+1 ≤ j ∧ Searching p f t m i ∧ stand p f t (i+1) = m := by
  induction j with
  | zero =>
    left
    intro i hi
    obtain rfl : i = 0 := by omega
    exact hm
  | succ j ih =>
    rcases ih with h | ⟨i,hi,hs,he⟩
    · by_cases hlt : stand p f t (j+1) < m
      · exact .inl (h.succ hlt)
      · have hj := h j (Nat.le_refl j)
        have hadv := advance_le p hf (stand p f t j) (t j)
        refine .inr ⟨j,Nat.le_refl _,h,?_⟩
        simp only [stand] at hlt ⊢
        omega
    · exact .inr ⟨i,by omega,hs,he⟩

theorem stand_of_occurs (hf : ∀ k, 0 < k → Border p k (f k)) {m n q : Nat}
    (hd : ¬ Drops p f t m n) (hq : q+m ≤ n) (ho : Occurs p t m q)
    {i : Nat} (hi : i ≤ m) (hs : Searching p f t m (q+i)) : i ≤ stand p f t (q+i) := by
  induction i with
  | zero => exact Nat.zero_le _
  | succ i ih =>
    have hsi : Searching p f t m (q+i) := hs.mono (by omega)
    have hle := ih (by omega) hsi
    have hc : t (q+i) = p i := ho i (by omega)
    have hag : Agree p t (q+i) i := by
      have h := ho.agree (j := q+i) (by omega) (by omega)
      rwa [Nat.add_sub_cancel_left] at h
    have hb : i = stand p f t (q+i) ∨ Border p (stand p f t (q+i)) i := by
      rcases Nat.eq_or_lt_of_le hle with h | h
      · exact .inl h
      · exact .inr ((stand_agree hf (q+i)).border_of_lt hag h)
    have hl : ¬ Lossy p f (stand p f t (q+i)) i := by
      intro hl
      exact hd ⟨q+i,i,hsi,hl,hc,by simpa using ho,by omega⟩
    have hnext := le_advance hb hl
    rw [← hc] at hnext
    exact hnext

/-- The single-fallback matcher finds a first occurrence exactly when it never
drops one. -/
theorem finds_iff_not_drops (hf : ∀ k, 0 < k → Border p k (f k)) {m : Nat} (hm : 0 < m)
    (n : Nat) : Finds p f t m n ↔ ¬ Drops p f t m n := by
  have hlt : ∀ k, 0 < k → f k < k := fun k hk => (hf k hk).1
  constructor
  · rintro hfind ⟨j,b,hs,hl,hc,ho,hn⟩
    obtain ⟨j',hj',hs',he⟩ := hfind _ hn ho
    have hfull := hs j (Nat.le_refl j)
    have hbk := hl.2.1.1
    have hkj := (stand_agree (t := t) hf j).1
    have hjj' : j ≤ j' := by
      by_contra hgt
      have := hs (j'+1) (by omega)
      omega
    have hmono := stand_start_mono (p := p) (t := t) hlt (i := j+1) (j := j'+1) (by omega)
    have hdrop : stand p f t (j+1) ≤ b := by
      simp only [stand,hc]
      exact hl.advance_le
    omega
  · intro hd q hq ho
    rcases searching_or_found (p := p) (t := t) hlt hm (q+m) with hs | ⟨j,hj,hs,he⟩
    · have h := stand_of_occurs hf hd hq ho (Nat.le_refl m) hs
      have := hs (q+m) (Nat.le_refl _)
      omega
    · exact ⟨j,hj,hs,he⟩

end Matching
