import SSearcher.MatchSpec
set_option autoImplicit false

namespace SSearcher
open Runs Matching

def search (k : Kmp) (p : Ptr) (m : Nat) (t : Ptr) (n linum : Nat) : Prog KmpRet := do
  let k ← kmpPrepare k p m
  kmpMatch k t n linum

/-- Wherever the pattern occurs, the search reports a match that is not to the
right of it. -/
def Complete (k : Kmp) (p : Ptr) (m : Nat) (t : Ptr) (n linum : Nat) : Prop :=
  ∀ q, q+m ≤ n → Occurs p t m q →
    ∃ r, (search k p m t n linum).val = some r ∧ r.found = true ∧ r.matchpos ≤ q

variable {p t : Ptr} {m n : Nat}

theorem search_val (k : Kmp) (p t : Ptr) (n linum : Nat) (hm : 0 < m) (hsmall : m < 2^31) :
    ∃ k', (kmpPrepare k p m).val = some k' ∧ Prepared k' p m ∧
      (search k p m t n linum).val = (kmpMatch k' t n linum).val := by
  obtain ⟨k',hv,hk⟩ := kmpPrepare_spec k p hm hsmall
  exact ⟨k',hv,hk,by simp [search,hv]⟩

theorem complete_iff_finds (k : Kmp) (hm : 0 < m) (hsmall : m < 2^31) (hn : n < 2^31)
    (linum : Nat) : Complete k p m t n linum ↔ Finds p (selfRun p) t m n := by
  obtain ⟨k',-,hk,hsearch⟩ := search_val k p t n linum hm hsmall
  obtain ⟨r,hr⟩ := kmpMatch_total hk t hn linum
  have hle : ∀ j, stand p (selfRun p) t (j+1) = m → m ≤ j+1 := by
    intro j hj
    have hag := stand_agree (p := p) (t := t) (fun _ => selfRun_border p) (j+1)
    rw [hj] at hag
    exact hag.1
  constructor
  · intro h q hq ho
    obtain ⟨r',hr',hf,hpos⟩ := h q hq ho
    rw [hsearch] at hr'
    rcases kmpMatch_spec hk hr' with ⟨hno,-⟩ | ⟨-,j,hjn,-,hs,hst,hp⟩
    · simp [hno] at hf
    · have := hle j hst
      exact ⟨j,by omega,hs,hst⟩
  · intro h q hq ho
    obtain ⟨j,hj,hs,hst⟩ := h q hq ho
    have hmj := hle j hst
    refine ⟨r,by rw [hsearch,hr],?_⟩
    rcases kmpMatch_spec hk hr with ⟨-,hs'⟩ | ⟨hf,j',-,-,hs',hst',hp⟩
    · have := hs' (j+1) (by omega)
      omega
    · refine ⟨hf,?_⟩
      have hjj : j' ≤ j := by
        by_contra hgt
        have := hs' (j+1) (by omega)
        omega
      omega

theorem complete_single (k : Kmp) (p t : Ptr) (hn : n < 2^31) (linum : Nat) :
    Complete k p 1 t n linum := by
  refine (complete_iff_finds k (by decide) (by decide) hn linum).mpr ?_
  rw [finds_iff_not_drops (fun _ => selfRun_border p) (by decide)]
  rintro ⟨j,b,hs,⟨hb,⟨hlt,-⟩,-⟩,-⟩
  have := hs j (Nat.le_refl j)
  omega

/-- A reported match is an occurrence inside the text, the search always returns,
and every byte of the pattern and the text and every table entry it reads or
writes is inside its block. -/
theorem search_sound (k : Kmp) (p t : Ptr) {m n : Nat} (hm : 0 < m) (hsmall : m < 2^31)
    (hn : n < 2^31) (linum : Nat) :
    (∃ r, (search k p m t n linum).val = some r) ∧
    (∀ r, (search k p m t n linum).val = some r → r.found = true →
      r.matchpos+m ≤ n ∧ ∀ i, i < m → t (r.matchpos+i) = p i) ∧
    (∀ k' s, (kmpPrepare k p m).val = some k' →
      Run.Reaches (kmpStep k' t n) ⟨0,0,linum⟩ s →
      s.patPos < m ∧ Run.Only (InBounds m n) (kmpStep k' t n s)) ∧
    Run.Only (InBounds m n) (search k p m t n linum) := by
  obtain ⟨k₁,hv,hk,hsearch⟩ := search_val k p t n linum hm hsmall
  have hstep : ∀ s, Run.Reaches (kmpStep k₁ t n) ⟨0,0,linum⟩ s →
      s.patPos < m ∧ Run.Only (InBounds m n) (kmpStep k₁ t n s) := by
    intro s hs
    have hi : SearchInv p t m n s :=
      hs.invariant (searchInv_step hk) (searchInv_init hk.pos linum)
    exact ⟨hi.patPos,kmpStep_only hk t hi.patPos⟩
  refine ⟨?_,?_,?_,?_⟩
  · rw [hsearch]
    exact kmpMatch_total hk t hn linum
  · intro r hr hf
    rw [hsearch] at hr
    obtain ⟨hle,-,ho⟩ := kmpMatch_sound hk hr hf
    exact ⟨hle,ho⟩
  · intro k' s hk' hs
    rw [hv,Option.some.injEq] at hk'
    subst hk'
    exact hstep s hs
  · refine .bind (kmpPrepare_only k p hm n) fun k' hk' => ?_
    rw [hv,Option.some.injEq] at hk'
    subst hk'
    intro e he
    obtain ⟨s,hs,he⟩ := Run.loop_log he
    exact (hstep s hs).2 e he

theorem search_sound_ab :
    ∃ r, (search noKmp (ofList [97,98]) 2 (ofList [97,97,98]) 3 1).val = some r ∧
      r.found = true ∧ r.matchpos+2 ≤ 3 := by
  obtain ⟨⟨r,hr⟩,h,-⟩ := search_sound noKmp (ofList [97,98]) (ofList [97,97,98])
    (m := 2) (n := 3) (by decide) (by decide) (by decide) 1
  have hv : (search noKmp (ofList [97,98]) 2 (ofList [97,97,98]) 3 1).val =
      some ⟨true,1,1⟩ := by decide
  have hf : r.found = true := by
    rw [hv,Option.some.injEq] at hr
    rw [← hr]
  exact ⟨r,hr,hf,(h r hr hf).1⟩

theorem recounts_eq_zero (p t : Ptr) (e : Nat) : recounts p t e = 0 ↔
    ∀ j, j < e → t j = newline → ¬ StartsOver p (selfRun p) (stand p (selfRun p) t j) newline := by
  induction e with
  | zero => simp [recounts]
  | succ e ih =>
    rw [recounts,Nat.add_eq_zero_iff,ih]
    constructor
    · rintro ⟨h,he⟩ j hj hn hover
      rcases Nat.lt_succ_iff_lt_or_eq.mp hj with hj | rfl
      · exact h j hj hn hover
      · rw [if_pos (hn.symm ▸ hover),isNewline,if_pos hn] at he
        cases he
    · intro h
      refine ⟨fun j hj => h j (by omega),?_⟩
      by_cases hn : t e = newline
      · rw [if_neg (hn ▸ h e (by omega) hn)]
      · simp [isNewline,hn]

theorem lt_stop_iff {k : Kmp} (hk : Prepared k p m) {linum : Nat} {r : KmpRet}
    (hr : (kmpMatch k t n linum).val = some r) (j : Nat) :
    j < r.stop m n ↔ j < n ∧ Searching p (selfRun p) t m j := by
  rcases kmpMatch_spec hk hr with ⟨hf,hs⟩ | ⟨hf,i,hin,-,hs,hst,hpos⟩
  · rw [KmpRet.stop,if_neg (by simp [hf])]
    exact ⟨fun hj => ⟨hj,hs.mono (by omega)⟩,fun h => h.1⟩
  · have hle := (stand_agree (p := p) (t := t) (fun _ => selfRun_border p) (i+1)).1
    have hstop : r.stop m n = i+1 := by
      rw [KmpRet.stop,if_pos hf]
      omega
    rw [hstop]
    refine ⟨fun hj => ⟨by omega,hs.mono (by omega)⟩,fun h => ?_⟩
    by_contra hgt
    have := h.2 (i+1) (by omega)
    omega

/-- The search leaves the number of lines exactly when it never starts over at a
newline. -/
theorem linum_counts_iff (k : Kmp) (p t : Ptr) {m n linum : Nat} (hm : 0 < m) (hsmall : m < 2^30)
    (hn : n < 2^30) (hlinum : linum < 2^30) :
    (∃ r, (search k p m t n linum).val = some r ∧
      r.linum = linum + newlines t (r.stop m n)) ↔
    ∀ j, j < n → Searching p (selfRun p) t m j → t j = newline →
      ¬ StartsOver p (selfRun p) (stand p (selfRun p) t j) newline := by
  obtain ⟨k',-,hk,hsearch⟩ := search_val k p t n linum hm (by omega)
  obtain ⟨r,hr⟩ := kmpMatch_total hk t (n := n) (by omega) linum
  have heq := kmpMatch_linum_eq hk (by omega) hr
  have hzero : r.linum = linum + newlines t (r.stop m n) ↔ recounts p t (r.stop m n) = 0 := by
    omega
  simp only [hsearch,hr,Option.some.injEq,exists_eq_left',hzero,recounts_eq_zero,
    lt_stop_iff hk hr,and_imp]

theorem linum_counts_aab : ∃ r, (search noKmp (ofList [97,97,98]) 3
    (ofList [97,10,97,98]) 4 1).val = some r ∧
      r.linum = 1 + newlines (ofList [97,10,97,98]) (r.stop 3 4) := by
  refine (linum_counts_iff noKmp (ofList [97,97,98]) (ofList [97,10,97,98]) (by decide)
    (by decide) (by decide) (by decide)).mpr fun j hj _ hn => ?_
  obtain rfl : j = 1 := by
    by_contra hne
    have : j = 0 ∨ j = 2 ∨ j = 3 := by omega
    rcases this with rfl | rfl | rfl <;> exact absurd hn (by decide)
  decide

theorem newline_counted_twice : ¬ ∃ r, (search noKmp (ofList [97,97,98]) 3
    (ofList [97,97,10]) 3 1).val = some r ∧
      r.linum = 1 + newlines (ofList [97,97,10]) (r.stop 3 3) := by
  rintro ⟨r,hr,hl⟩
  have hv : (search noKmp (ofList [97,97,98]) 3 (ofList [97,97,10]) 3 1).val =
      some ⟨false,3,2^32-1⟩ := by decide
  rw [hv,Option.some.injEq] at hr
  rw [← hr] at hl
  exact absurd hl (by decide)

end SSearcher
