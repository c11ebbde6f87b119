import SSearcher.Failure
import SSearcher.Grep
set_option autoImplicit false

namespace SSearcher
open Runs Memory Matching

def Event.isComparison : Event → Bool
  | .load .pat _ => true
  | _ => false

def comparisons (es : List Event) : Nat := es.countP Event.isComparison

theorem comparisons_append (l l' : List Event) :
    comparisons (l ++ l') = comparisons l + comparisons l' := List.countP_append

theorem comparisons_eq_zero {R : List Region} (hR : .pat ∉ R) {es : List Event}
    (h : ∀ e, e ∈ es → Within R e) : comparisons es = 0 := by
  refine List.countP_eq_zero.mpr fun e he hcmp => ?_
  have hw := h e he
  cases e with
  | load r i =>
    cases r with
    | pat => exact hR hw
    | _ => cases hcmp
  | _ => cases hcmp

theorem comparisons_load {α β : Type} (r : Region) (m : Nat → α) (i : Nat) (f : α → Prog β) :
    comparisons (load r m i >>= f).log =
      comparisons (f (m i)).log + if r = .pat then 1 else 0 := by
  rw [Run.log_bind_of_val f (val_load r m i),log_load,comparisons_append,Nat.add_comm]
  cases r <;> rfl

variable {p t : Ptr} {m n : Nat}

/-- With nothing matched a round compares once, else at most twice. -/
theorem kmpStep_comparisons (k : Kmp) (t : Ptr) (n : Nat) (s : KmpLoop) :
    comparisons (kmpStep k t n s).log ≤
      if s.textPos < n then if s.patPos = 0 then 1 else 2 else 0 := by
  have hhit : ∀ i l, comparisons (kmpHit k i s.textPos l).log = 0 := fun i l => by
    rw [kmpHit_log]
    rfl
  have hskip : ∀ i l, comparisons (kmpSkip i s.textPos l).log = 0 := fun i l => by
    rw [kmpSkip_log]
    rfl
  unfold kmpStep
  by_cases ht : s.textPos < n
  · rw [if_pos ht,if_pos ht]
    simp only [comparisons_load,reduceCtorEq,if_true,if_false,Nat.add_zero]
    split
    · rw [hhit]
      split <;> omega
    by_cases h0 : s.patPos = 0
    · rw [if_pos h0,if_pos h0,hskip]
    rw [if_neg h0,if_neg h0]
    refine Nat.succ_le_succ ?_
    cases htable : k.kmpTable with
    | none => simp [Kmp.tableEntry,htable,comparisons,Run.log_bind]
    | some table =>
      simp only [Kmp.tableEntry,htable,comparisons_load,reduceCtorEq,if_true,if_false,Nat.add_zero]
      refine Nat.succ_le_succ (Nat.le_of_eq ?_)
      split
      · exact hhit _ _
      split
      · rfl
      · exact hskip _ _
  · rw [if_neg ht,if_neg ht]
    exact Nat.le_refl 0

/-- What the search may still spend: a byte costs one comparison while nothing is
matched, and at most three. -/
def kmpBudget (n : Nat) (s : KmpLoop) : Nat :=
  3*(n-s.textPos) - if s.patPos = 0 then 2 else 0

theorem kmpStep_paid (k : Kmp) (t : Ptr) (n : Nat) (s : KmpLoop) :
    comparisons (kmpStep k t n s).log ≤ kmpBudget n s := by
  have hcmp := kmpStep_comparisons k t n s
  unfold kmpBudget
  split at hcmp
  · split at hcmp <;> split <;> omega
  · omega

theorem kmpStep_pays {k : Kmp} (hk : Prepared k p m) {s s' : KmpLoop}
    (h : SearchInv p t m n s) (hs : (kmpStep k t n s).val = some (.inl s')) :
    comparisons (kmpStep k t n s).log + kmpBudget n s' ≤ kmpBudget n s := by
  have hcmp := kmpStep_comparisons k t n s
  obtain ⟨hlt,hmoves⟩ := kmpStep_moves hk h hs
  rw [if_pos hlt] at hcmp
  unfold kmpBudget
  rcases hmoves with ⟨hne,h0,he⟩ | he
  · rw [if_neg hne] at hcmp ⊢
    rw [if_pos h0,he]
    omega
  · rw [he]
    split at hcmp
    · rename_i h0
      rw [if_pos h0]
      omega
    · rename_i h0
      rw [if_neg h0]
      omega

theorem kmpStep_saves {k : Kmp} (hk : Prepared k p m) {s : KmpLoop} {r : KmpRet}
    (h : SearchInv p t m n s) (hs : (kmpStep k t n s).val = some (.inr r)) :
    comparisons (kmpStep k t n s).log + 3*(n-r.stop m n) ≤ kmpBudget n s := by
  have hcmp := kmpStep_comparisons k t n s
  unfold kmpBudget
  rcases searchInv_exit hk h hs with ⟨he,rfl⟩ | ⟨hlt,hst,rfl⟩
  · rw [if_neg (by omega)] at hcmp
    rw [KmpRet.stop,if_neg (by simp)]
    omega
  · have hle := (stand_agree (p := p) (t := t) (fun _ => selfRun_border p) (s.textPos+1)).1
    rw [hst] at hle
    rw [if_pos hlt] at hcmp
    rw [KmpRet.stop,if_pos rfl]
    simp only
    split at hcmp
    · rename_i h0
      rw [if_pos h0]
      omega
    · rename_i h0
      rw [if_neg h0]
      omega

theorem kmpMatch_comparisons {k : Kmp} (hk : Prepared k p m) (t : Ptr) (n linum : Nat) :
    comparisons (kmpMatch k t n linum).log ≤ 3*n ∧
    ∀ r, (kmpMatch k t n linum).val = some r →
      comparisons (kmpMatch k t n linum).log + 3*(n-r.stop m n) ≤ 3*n := by
  have hinit : kmpBudget n ⟨0,0,linum⟩ ≤ 3*n := Nat.sub_le _ _
  obtain ⟨hall,hexit⟩ := Run.loop_countP_le (I := SearchInv p t m n) (P := Event.isComparison)
    (μ := kmpBudget n) (ν := fun r => 3*(n-r.stop m n)) (fun s _ => kmpStep_paid k t n s)
    (fun s s' h hs => ⟨searchInv_step hk s s' h hs,kmpStep_pays hk h hs⟩)
    (fun s r h hs => kmpStep_saves hk h hs) (searchInv_init hk.pos linum) (2*n+1)
  exact ⟨Nat.le_trans hall hinit,fun r hr => Nat.le_trans (hexit r hr) hinit⟩

theorem comparisons_relabel (es : List Event) (base : Nat) :
    comparisons (es.map (.rebase .text .file base)) = comparisons es := by
  rw [comparisons,List.countP_map]
  refine List.countP_congr fun e _ => ?_
  cases e with
  | load r i | store r i => cases r <;> exact Iff.rfl
  | _ => exact Iff.rfl

namespace Scan
variable {sc : Scan} {s : ScanLoop}

theorem scanMatch_comparisons (hs : s.startpos ≤ sc.size) :
    comparisons (scanMatch sc.kmp sc.fb sc.size s).log ≤ 3*(sc.size-s.startpos) ∧
    ∀ r, sc.size < 2^32 → sc.Hit s r → comparisons (scanMatch sc.kmp sc.fb sc.size s).log +
      3*(sc.size-(matchAt s r + sc.patlen)) ≤ 3*(sc.size-s.startpos) := by
  obtain ⟨hall,hexit⟩ := kmpMatch_comparisons sc.prepared (sc.textAt s.startpos)
    (sc.size-s.startpos) s.linum
  have hlog : comparisons (scanMatch sc.kmp sc.fb sc.size s).log = comparisons
      (kmpMatch sc.kmp (sc.textAt s.startpos) (sc.size-s.startpos) s.linum).log := by
    rw [scanMatch,Run.log_relabel,subSize_startpos hs]
    exact comparisons_relabel _ _
  rw [hlog]
  refine ⟨hall,fun r hsmall hit => ?_⟩
  have hv := hit.val
  rw [scanMatch_val hs] at hv
  have hle := hexit r hv
  rw [KmpRet.stop,if_pos hit.found] at hle
  rw [hit.matchAt_eq hs hsmall]
  omega

theorem scanWrite_comparisons (s : ScanLoop) (r : KmpRet) :
    comparisons (scanWrite sc.opt sc.fb s r).log = 0 := by
  obtain ⟨l,hl,hlog⟩ := workerWritebuffer_log sc.opt s.statics s.buffer sc.fb
    (u32 (r.matchpos+s.startpos)) r.linum s.lastlinum
  have hbol : comparisons (beginOfLine sc.fb (u32 (r.matchpos+s.startpos))).log = 0 :=
    comparisons_eq_zero (R := [.file]) (by decide) within_beginOfLine
  have hrest : comparisons l = 0 :=
    comparisons_eq_zero (R := [.buf,.lit,.file]) (by decide) hl
  rw [scanWrite,Run.log_bind_pure,hlog,comparisons_append,hbol,Nat.zero_add]
  unfold comparisons at hrest ⊢
  rw [List.countP_cons,hrest]
  split <;> rfl

theorem step_comparisons (s : ScanLoop) : comparisons (sc.step s).log =
    comparisons (scanMatch sc.kmp sc.fb sc.size s).log := by
  rw [step,matchStep,Run.log_bind,comparisons_append]
  cases (scanMatch sc.kmp sc.fb sc.size s).val with
  | none => exact Nat.add_zero _
  | some r =>
    rw [Option.elim_some]
    split
    · rw [Run.log_bind_pure,scanWrite_comparisons,Nat.add_zero]
    · exact Nat.add_zero _

end Scan

/-- The match loop over a file compares at most three times for each byte of it, however
many matches it reports on the way. -/
theorem scan_linear (sc : Scan) (st : Statics) (b : Buffer) (hsmall : sc.size < 2^31)
    (hcap : 0 < b.cap) (fuel : Nat) :
    comparisons (sc.run fuel (scanInit st b)).log ≤ 3*sc.size := by
  have hall : ∀ s, sc.SmallInv s →
      comparisons (sc.step s).log ≤ 3*(sc.size-s.startpos) := fun s hs => by
    rw [Scan.step_comparisons]
    exact (Scan.scanMatch_comparisons hs.startpos).1
  refine (Run.loop_countP_le (I := sc.SmallInv) (μ := fun s => 3*(sc.size-s.startpos))
    (ν := fun _ => 0) hall (fun s s' hs hv => ?_) (fun s _ hs _ => Nat.add_zero _ ▸ hall s hs)
    (Scan.smallInv_init st hcap) fuel).1
  refine ⟨Scan.smallInv_step hsmall s s' hs hv,?_⟩
  rcases Scan.step_cases hv with ⟨_,-,-,he⟩ | ⟨r,_,_,hit,-⟩
  · cases he
  · have hle := (Scan.scanMatch_comparisons hs.startpos).2 r (by omega) hit
    rw [← Scan.step_comparisons,← (hit.head hs.startpos (by omega) hv).1] at hle
    exact hle

theorem scan_linear_aab :
    comparisons ((Scan.of [97,97,98] [97,97,97,97,98] false (by decide) (by decide)).run 6
      (scanInit ⟨0,0⟩ freshBuffer)).log ≤ 15 :=
  scan_linear _ ⟨0,0⟩ freshBuffer (by decide) (by decide) 6

end SSearcher
