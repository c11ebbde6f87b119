import SSearcher.Search
set_option autoImplicit false

namespace SSearcher
open Runs Matching

variable {p t : Ptr} {m n : Nat}

/-- The table kmp_prepare leaves holds the length of the longest border of each
prefix of the pattern. -/
def TableLongest (k : Kmp) (p : Ptr) (m : Nat) : Prop :=
  ∃ k' table, (kmpPrepare k p m).val = some k' ∧ k'.kmpTable = some table ∧
    ∀ i, i < m → LongestBorder p (i+1) (table.entry i)

/-- The table is the failure function exactly when the one border kmp_prepare tries,
the longest, is never the wrong one to try. -/
theorem tableLongest_iff (k : Kmp) (p : Ptr) {m : Nat} (hm : 0 < m) (hsmall : m < 2^31) :
    TableLongest k p m ↔ ∀ i, 0 < i → i < m → LongestGoesOn p i := by
  obtain ⟨k₁,hval,hk⟩ := kmpPrepare_spec k p hm hsmall
  obtain ⟨table,htable,hentry⟩ := hk.table
  rw [← selfRun_longest_iff]
  constructor
  · rintro ⟨k',table',hval',htable',h⟩ i hi
    obtain rfl : k₁ = k' := Option.some.inj (hval.symm.trans hval')
    obtain rfl : table = table' := Option.some.inj (htable.symm.trans htable')
    rw [← hentry i hi]
    exact h i hi
  · intro h
    refine ⟨k₁,table,hval,htable,fun i hi => ?_⟩
    rw [hentry i hi]
    exact h i hi

theorem tableLongest_iff_aab : TableLongest noKmp (ofList [97,97,98]) 3 := by
  refine (tableLongest_iff noKmp _ (by decide) (by decide)).mpr ?_
  intro i h0 hi b c hb hc hpc
  obtain rfl | rfl : i = 1 ∨ i = 2 := by omega
  · obtain rfl : b = 0 := by have := hb.1.1; omega
    decide
  · have hlt := hc.1
    obtain rfl | rfl : c = 0 ∨ c = 1 := by omega
    · exact absurd hpc (by decide)
    · exact absurd hpc (by decide)

/-- In "aabaaa" the last entry is 0, and "aa" is a border. -/
theorem aabaaa_entry : ¬ TableLongest noKmp (ofList [97,97,98,97,97,97]) 6 := by
  rintro ⟨k,table,hval,htable,h⟩
  have hentry : ((kmpPrepare noKmp (ofList [97,97,98,97,97,97]) 6).val.bind
      Kmp.kmpTable).map (fun t => t.entry 5) = some 0 := by decide
  rw [hval,Option.bind_some,htable,Option.map_some,Option.some.injEq] at hentry
  have hborder : Border (ofList [97,97,98,97,97,97]) 6 2 :=
    ⟨by decide,by decide,by decide⟩
  have hle := (h 5 (by decide)).2 2 hborder
  omega

/-- What one round of the search does to its two indices: it keeps the byte and
starts over, which it cannot do twice in a row, or it goes to the next byte. -/
theorem kmpStep_moves {k : Kmp} (hk : Prepared k p m) {s s' : KmpLoop}
    (h : SearchInv p t m n s) (hs : (kmpStep k t n s).val = some (.inl s')) :
    s.textPos < n ∧ (s.patPos ≠ 0 ∧ s'.patPos = 0 ∧ s'.textPos = s.textPos ∨
      s'.textPos = s.textPos+1) := by
  by_cases ht : s.textPos < n
  · refine ⟨ht,?_⟩
    rcases kmpStep_cases hk t h.patPos ht with ⟨hover,-,hv⟩ | ⟨-,-,hv⟩ | ⟨-,-,hv⟩
    · obtain rfl := Sum.inl.inj (Option.some.inj (hv.symm.trans hs))
      exact .inl ⟨hover.2.1,rfl,rfl⟩
    · simp [hv] at hs
    · rw [hv] at hs
      simp only [Option.map_eq_some_iff,incInt_eq_some,Sum.inl.injEq] at hs
      obtain ⟨j,⟨rfl,-⟩,rfl⟩ := hs
      exact .inr rfl
  · simp [kmpStep_exit k t ht] at hs

def kmpRounds (k : Kmp) (t : Ptr) (n linum fuel : Nat) : List KmpLoop :=
  Run.heads (kmpStep k t n) fuel ⟨0,0,linum⟩

theorem kmpRounds_mono {k : Kmp} (hk : Prepared k p m) (t : Ptr) (n linum fuel : Nat) :
    (kmpRounds k t n linum fuel).Pairwise fun s s' => s.textPos ≤ s'.textPos := by
  refine Run.heads_pairwise (I := SearchInv p t m n) ?_ (searchInv_init hk.pos linum) fuel
  intro s s' h hs
  refine ⟨searchInv_step hk s s' h hs,?_⟩
  rcases (kmpStep_moves hk h hs).2 with ⟨-,-,he⟩ | he <;> omega

/-- How often the loop may still look at index `j`: twice before it gets there, and
once while it stands there with nothing matched, since it moves on then. -/
def looksLeft (j : Nat) (s : KmpLoop) : Nat :=
  if s.textPos < j then 2 else if s.textPos = j then if s.patPos = 0 then 1 else 2 else 0

theorem looksLeft_le (j : Nat) (s : KmpLoop) : looksLeft j s ≤ 2 := by
  unfold looksLeft
  split
  · exact Nat.le_refl 2
  · split
    · split <;> omega
    · exact Nat.zero_le 2

theorem looksLeft_pos {j : Nat} {s : KmpLoop} (h : s.textPos = j) : 0 < looksLeft j s := by
  rw [looksLeft,if_neg (by omega),if_pos h]
  split <;> omega

theorem looksLeft_behind {j : Nat} {s : KmpLoop} (h : j < s.textPos) : looksLeft j s = 0 := by
  rw [looksLeft,if_neg (by omega),if_neg (by omega)]

theorem looksLeft_again {j : Nat} {s s' : KmpLoop} (hne : s.patPos ≠ 0) (h0 : s'.patPos = 0)
    (he : s'.textPos = s.textPos) :
    looksLeft j s' + (if s.textPos = j then 1 else 0) = looksLeft j s := by
  unfold looksLeft
  rw [he,if_neg hne,if_pos h0]
  by_cases hj : s.textPos = j
  · rw [if_pos hj,if_neg (by omega),if_pos hj,if_neg (by omega)]
  · rw [if_neg hj,if_neg hj,Nat.add_zero]

theorem looksLeft_next {j : Nat} {s s' : KmpLoop} (he : s'.textPos = s.textPos+1) :
    looksLeft j s' + (if s.textPos = j then 1 else 0) ≤ looksLeft j s := by
  rcases Nat.lt_trichotomy s.textPos j with hlt | heq | hgt
  · have hle := looksLeft_le j s'
    rw [if_neg (by omega),looksLeft.eq_def j s,if_pos hlt]
    exact hle
  · have hpos := looksLeft_pos heq
    rw [looksLeft_behind (by omega),if_pos heq]
    exact hpos
  · rw [looksLeft_behind (by omega),if_neg (by omega)]
    exact Nat.zero_le _

theorem kmpRounds_index {k : Kmp} (hk : Prepared k p m) (t : Ptr) (n linum fuel j : Nat) :
    (kmpRounds k t n linum fuel).countP (fun s => s.textPos = j) ≤ 2 := by
  refine Nat.le_trans (Run.countP_heads_le (I := SearchInv p t m n) (μ := looksLeft j) ?_ ?_
    (searchInv_init hk.pos linum) fuel) (looksLeft_le j _)
  · intro s _ hs
    exact looksLeft_pos (of_decide_eq_true hs)
  · intro s s' h hs
    refine ⟨searchInv_step hk s s' h hs,?_⟩
    simp only [decide_eq_true_eq]
    rcases (kmpStep_moves hk h hs).2 with ⟨hne,h0,he⟩ | he
    · exact Nat.le_of_eq (looksLeft_again hne h0 he)
    · exact looksLeft_next he

theorem kmpRounds_bodies {k : Kmp} (hk : Prepared k p m) (t : Ptr) (n linum fuel : Nat) :
    (kmpRounds k t n linum fuel).countP (fun s => s.textPos < n) ≤ 2*n := by
  refine Run.countP_heads_le (I := SearchInv p t m n)
    (μ := fun s => 2*(n-s.textPos) + if s.patPos = 0 then 0 else 1) ?_ ?_
    (searchInv_init hk.pos linum) fuel
  · intro s _ hs
    rw [decide_eq_true_eq] at hs
    omega
  · intro s s' h hs
    obtain ⟨hlt,hmoves⟩ := kmpStep_moves hk h hs
    refine ⟨searchInv_step hk s s' h hs,?_⟩
    simp only [hlt,decide_true,if_true]
    rcases hmoves with ⟨hne,h0,he⟩ | he
    · rw [he]
      split <;> omega
    · rw [he]
      split <;> split <;> omega

/-- The search loop returns, and however long it is followed its body runs at most
twice for each byte of the text, never going back. -/
theorem kmpMatch_progress (k : Kmp) (p t : Ptr) {m n : Nat} (hm : 0 < m) (hsmall : m < 2^31)
    (hn : n < 2^31) (linum : Nat) :
    ∃ k', (kmpPrepare k p m).val = some k' ∧
      (∃ r, (kmpMatch k' t n linum).val = some r) ∧
      (kmpMatch k' t n linum).log =
        (kmpRounds k' t n linum (2*n+1)).flatMap (fun s => (kmpStep k' t n s).log) ∧
      ∀ fuel, (kmpRounds k' t n linum fuel).countP (fun s => s.textPos < n) ≤ 2*n ∧
        (kmpRounds k' t n linum fuel).Pairwise (fun s s' => s.textPos ≤ s'.textPos) ∧
        ∀ j, (kmpRounds k' t n linum fuel).countP (fun s => s.textPos = j) ≤ 2 := by
  obtain ⟨k',hval,hk⟩ := kmpPrepare_spec k p hm hsmall
  refine ⟨k',hval,kmpMatch_total hk t hn linum,Run.loop_log_heads _ _,
    fun fuel => ⟨?_,?_,fun j => ?_⟩⟩
  · exact kmpRounds_bodies hk t n linum fuel
  · exact kmpRounds_mono hk t n linum fuel
  · exact kmpRounds_index hk t n linum fuel j

theorem kmpMatch_progress_aab : ∃ k',
    (kmpPrepare noKmp (ofList [97,97,98]) 3).val = some k' ∧
      (∃ r, (kmpMatch k' (ofList [97,97,97,98]) 4 1).val = some r) ∧
      (kmpMatch k' (ofList [97,97,97,98]) 4 1).log =
        (kmpRounds k' (ofList [97,97,97,98]) 4 1 (2*4+1)).flatMap
          (fun s => (kmpStep k' (ofList [97,97,97,98]) 4 s).log) ∧
      ∀ fuel, (kmpRounds k' (ofList [97,97,97,98]) 4 1 fuel).countP (fun s => s.textPos < 4)
          ≤ 2*4 ∧
        (kmpRounds k' (ofList [97,97,97,98]) 4 1 fuel).Pairwise
          (fun s s' => s.textPos ≤ s'.textPos) ∧
        ∀ j, (kmpRounds k' (ofList [97,97,97,98]) 4 1 fuel).countP (fun s => s.textPos = j)
          ≤ 2 :=
  kmpMatch_progress noKmp _ _ (by decide) (by decide) (by decide) 1

end SSearcher
