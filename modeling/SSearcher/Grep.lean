import SSearcher.Leftmost
import SSearcher.Positions
import SSearcher.Contents
import SSearcher.Contained
set_option autoImplicit false

namespace SSearcher
open Runs Memory Matching

/-- The pattern has no border that the one fallback of a search loses. -/
def Options.Lossless (opt : Options) : Prop := ∀ k b, k < opt.searchPatlen →
  ¬ Lossy opt.searchPattern (selfRun opt.searchPattern) k b

/-- No prefix of the pattern makes a search start over at a newline. -/
def Options.Steady (opt : Options) : Prop := ∀ k, k < opt.searchPatlen →
  ¬ StartsOver opt.searchPattern (selfRun opt.searchPattern) k newline

/-- The first byte of the pattern comes again at its end at most. -/
def Options.FirstOnce (opt : Options) : Prop := ∀ i, 0 < i → i+1 < opt.searchPatlen →
  opt.searchPattern i ≠ opt.searchPattern 0

instance (opt : Options) : Decidable opt.FirstOnce :=
  decidable_of_iff (∀ i, i < opt.searchPatlen-1 → 0 < i →
    opt.searchPattern i ≠ opt.searchPattern 0)
    ⟨fun h i hi hlt => h i (by omega) hi,fun h i hlt hi => h i hi (by omega)⟩

theorem Options.FirstOnce.no_border {opt : Options} (h : opt.FirstOnce) {k b : Nat}
    (hk : k < opt.searchPatlen) (hb : 0 < b) : ¬ Border opt.searchPattern k b := by
  rintro ⟨hlt,-,ha⟩
  exact h (k-b) (by omega) (by omega) (ha 0 hb)

theorem Options.FirstOnce.lossless {opt : Options} (h : opt.FirstOnce) : opt.Lossless := by
  rintro k b hk ⟨hb,hborder,-⟩
  exact h.no_border hk hb hborder

theorem Options.FirstOnce.steady {opt : Options} (h : opt.FirstOnce) : opt.Steady := by
  rintro k hk ⟨-,h0,-,hf⟩
  exact h.no_border hk (Nat.pos_of_ne_zero hf) (selfRun_border _ (Nat.pos_of_ne_zero h0))

namespace Scan
variable {sc : Scan} {s s' : ScanLoop} {r : KmpRet} {fuel : Nat}

/-- The search from `s` forgets no border at which the pattern occurs in the file. -/
def Keeps (sc : Scan) (s : ScanLoop) : Prop :=
  ¬ Drops sc.opt.searchPattern (selfRun sc.opt.searchPattern) (sc.textAt s.startpos) sc.patlen
    (sc.size-s.startpos)

theorem keeps_of_lossless (h : sc.opt.Lossless) (s : ScanLoop) : sc.Keeps s := by
  rintro ⟨j,b,hsearch,hlossy,-⟩
  exact h _ b (hsearch j (Nat.le_refl j)) hlossy

def Naive (sc : Scan) (start : Nat) (l : List Nat) : Prop :=
  Greedy sc.opt.searchPattern sc.fb sc.patlen sc.size start l

theorem keeps_iff (hs : s.startpos ≤ sc.size) : sc.Keeps s ↔
    ∀ q, s.startpos ≤ q → q+sc.patlen ≤ sc.size →
      Occurs sc.opt.searchPattern sc.fb sc.patlen q →
      ∃ e, e+1 ≤ q-s.startpos+sc.patlen ∧ sc.FirstEnd s.startpos e := by
  have hborder : ∀ k, 0 < k →
      Border sc.opt.searchPattern k (selfRun sc.opt.searchPattern k) := fun _ => selfRun_border _
  have hpos : 0 < sc.patlen := sc.patPos
  rw [Keeps,← finds_iff_not_drops hborder hpos]
  constructor
  · intro h q hle hq ho
    obtain ⟨e,he,hnone,hfull⟩ := h (q-s.startpos) (by omega) fun i hi => by
      have hidx : s.startpos+(q-s.startpos+i) = q+i := by omega
      rw [textAt,hidx,ho i hi]
    exact ⟨e,he,⟨by omega,hnone,hfull⟩⟩
  · intro h q hq ho
    obtain ⟨e,he,hfirst⟩ := h (s.startpos+q) (by omega) (by omega) fun i hi => by
      rw [Nat.add_assoc]
      exact ho i hi
    exact ⟨e,by omega,hfirst.none,hfirst.full⟩

theorem keeps_iff_none (hs : s.startpos ≤ sc.size) (hsmall : sc.size < 2^31)
    (hno : ∀ r, ¬ sc.Hit s r) : sc.Keeps s ↔ sc.Naive s.startpos [] := by
  obtain ⟨r,hr⟩ := (scanMatch_some_iff hs).mpr (.inl (by omega))
  rw [keeps_iff hs,Naive,greedy_nil]
  refine forall_congr' fun q => forall₃_congr fun hle hq ho => ?_
  constructor
  · rintro ⟨e,-,he⟩
    exact hno r (he.hit hs hr)
  · intro h
    exact h.elim

theorem keeps_iff_first (hit : sc.Hit s r) (hs : s.startpos ≤ sc.size) (hsmall : sc.size < 2^31) :
    sc.Keeps s ↔ FirstFrom sc.opt.searchPattern sc.fb sc.patlen sc.size s.startpos
      (matchAt s r) := by
  obtain ⟨e,he,hpos⟩ := hit.firstEnd hs
  have hsound := hit.sound hs
  have hat := hit.matchAt_eq hs (by omega)
  rw [keeps_iff hs]
  constructor
  · intro h
    refine ⟨by omega,by omega,hat ▸ hsound.2.2,fun q hle hlt ho => ?_⟩
    obtain ⟨e',hle',he'⟩ := h q hle (by omega) ho
    obtain rfl := he.eq he'
    omega
  · rintro ⟨-,-,-,hfirst⟩ q hle hq ho
    refine ⟨e,?_,he⟩
    by_contra hgt
    exact hfirst q hle (by omega) ho

theorem reaches_iff {x : ScanLoop} (hv : (sc.step s).val = some (.inl s')) :
    Run.Reaches sc.step s x ↔ x = s ∨ Run.Reaches sc.step s' x := by
  constructor
  · intro h
    rcases Relation.ReflTransGen.cases_head h with rfl | ⟨s₁,hstep,hrest⟩
    · exact .inl rfl
    · obtain rfl : s' = s₁ := Sum.inl.inj (Option.some.inj (hv.symm.trans hstep))
      exact .inr hrest
  · rintro (rfl | h)
    · exact .refl _
    · exact h.head hv

theorem reaches_last {x : ScanLoop} (hv : ∀ s', (sc.step s).val ≠ some (.inl s')) :
    Run.Reaches sc.step s x ↔ x = s := by
  constructor
  · intro h
    rcases Relation.ReflTransGen.cases_head h with rfl | ⟨s₁,hstep,-⟩
    · rfl
    · exact absurd hstep (hv s₁)
  · rintro rfl
    exact .refl _

theorem reports_naive_iff (hs : sc.SmallInv s) (hsmall : sc.size < 2^31)
    (hfuel : sc.size-s.startpos < fuel) :
    sc.Naive s.startpos ((reports (sc.run fuel s).log).map Prod.fst) ↔
      ∀ x, Run.Reaches sc.step s x → sc.Keeps x := by
  induction fuel generalizing s with
  | zero => omega
  | succ fuel ih =>
    obtain ⟨y,hy,hnext⟩ := step_total hs hsmall
    rcases reports_run_cases sc fuel s with ⟨hl,hno⟩ | ⟨r,hit,⟨-,hv⟩ | ⟨s',hv,hl⟩⟩
    · have hlast : ∀ s', (sc.step s).val ≠ some (.inl s') := by
        intro s' hv
        rcases step_cases hv with ⟨_,-,-,he⟩ | ⟨r,_,_,hit,-⟩
        · cases he
        · exact hno r hit
      rw [hl,List.map_nil,← keeps_iff_none hs.startpos hsmall hno]
      simp only [reaches_last hlast,forall_eq]
    · rw [hy] at hv
      cases hv
    · obtain rfl : y = .inl s' := Option.some.inj (hy.symm.trans hv)
      obtain ⟨hs',hlt⟩ := hnext s' rfl
      have hhead := (hit.head hs.startpos (by omega) hv).1
      rw [hl,List.map_cons,Naive,greedy_cons,← keeps_iff_first hit hs.startpos hsmall,← hhead]
      simp only [reaches_iff hv,forall_eq_or_imp]
      exact and_congr_right fun _ => ih hs' (by omega)

end Scan

/-- The match loop ends and has reported the occurrences of a naive search, each time the
first one behind the last match, exactly when no search of it forgets a border at which the
pattern occurs and every record stays in its blocks. -/
theorem scan_naive_iff (sc : Scan) (st : Statics) (b : Buffer) (hsmall : sc.size < 2^31)
    (hcap : 0 < b.cap) :
    (∃ s, (sc.checkedRun (sc.size+1) (scanInit st b)).val = some s) ∧
      (reports (sc.checkedRun (sc.size+1) (scanInit st b)).log).map Prod.fst =
        occurrences sc.opt.searchPattern sc.fb sc.patlen sc.size ↔
      ∀ s, Run.Reaches sc.checked (scanInit st b) s →
        sc.Keeps s ∧ ∀ r, sc.Hit s r → sc.Contained s r := by
  have hpos : 0 < sc.patlen := sc.patPos
  have hends := Scan.checkedRun_ends_iff sc st hsmall hcap
  have hinit : sc.SmallInv (scanInit st b) := Scan.smallInv_init st hcap
  have hnaive := Scan.reports_naive_iff hinit hsmall (Nat.lt_succ_of_le (Nat.sub_le _ _))
  rw [← greedy_iff hpos]
  constructor
  · rintro ⟨hend,hgreedy⟩ s hs
    have hin := hends.mp hend
    rw [Scan.checkedRun_eq hsmall hcap hin] at hgreedy
    exact ⟨hnaive.mp hgreedy s (Scan.restricts_checked.reaches hs),hin s hs⟩
  · intro h
    have hin := fun s hs => (h s hs).2
    refine ⟨hends.mpr hin,?_⟩
    rw [Scan.checkedRun_eq hsmall hcap hin]
    exact hnaive.mpr fun s hs => (h s ((Scan.reaches_checked hsmall hcap hin).mpr hs)).1

theorem scan_naive_iff_aa :
    (reports (scanAa.checkedRun 4 (scanInit ⟨0,0⟩ freshBuffer)).log).map Prod.fst = [0,1] := by
  have honce : scanAa.opt.FirstOnce := by decide
  refine ((scan_naive_iff scanAa ⟨0,0⟩ freshBuffer (by decide) (by decide)).mpr ?_).2
  intro s hs
  have hi := Scan.smallInv_checked (by decide) (by decide) hs
  exact ⟨Scan.keeps_of_lossless honce.lossless s,
    fun r hit => hit.contained_of_le hi.startpos (by decide)⟩

namespace Scan
variable {sc : Scan} {s s' : ScanLoop} {r : KmpRet} {fuel : Nat}

theorem naive_of_lossless (h : sc.opt.Lossless) (hs : sc.SmallInv s) (hsmall : sc.size < 2^31)
    (hfuel : sc.size-s.startpos < fuel) :
    sc.Naive s.startpos ((reports (sc.run fuel s).log).map Prod.fst) :=
  (reports_naive_iff hs hsmall hfuel).mpr fun x _ => keeps_of_lossless h x

theorem newlines_textAt (sc : Scan) (start n : Nat) :
    newlines sc.fb (start+n) = newlines sc.fb start + newlines (sc.textAt start) n := by
  have htext : slice (sc.textAt start) 0 n = slice sc.fb start n :=
    slice_congr fun i _ => by rw [textAt,Nat.zero_add]
  rw [newlines,newlines,newlines,slice_add,List.count_append,htext,Nat.zero_add]

theorem recounts_eq_zero_of {p t : Ptr} {j : Nat}
    (h : ∀ i, i < j → ¬ StartsOver p (selfRun p) (stand p (selfRun p) t i) newline) :
    recounts p t j = 0 := by
  induction j with
  | zero => rfl
  | succ j ih =>
    rw [recounts,ih fun i hi => h i (by omega),Nat.zero_add]
    split
    · rename_i hover
      refine if_neg fun hn => h j (Nat.lt_succ_self j) ?_
      rwa [hn] at hover
    · rfl

theorem Hit.linum_eq (hit : sc.Hit s r) (hs : sc.SmallInv s) (hsmall : sc.size < 2^31) :
    r.linum + newlines sc.fb s.startpos = s.linum + newlines sc.fb (matchAt s r + sc.patlen) +
      recounts sc.opt.searchPattern (sc.textAt s.startpos) (r.matchpos+sc.patlen) := by
  have hv := hit.val
  have hle := hs.linum_le
  have hstart := hs.startpos
  rw [scanMatch_val hstart] at hv
  have heq := kmpMatch_linum_eq sc.prepared (by omega) hv
  rw [KmpRet.stop,if_pos hit.found] at heq
  have hat := hit.matchAt_eq hstart (by omega)
  rw [hat,Nat.add_assoc s.startpos,newlines_textAt]
  omega

theorem recounts_of_steady (h : sc.opt.Steady) (hit : sc.Hit s r) (hs : s.startpos ≤ sc.size) :
    recounts sc.opt.searchPattern (sc.textAt s.startpos) (r.matchpos+sc.patlen) = 0 := by
  obtain ⟨e,he,hpos⟩ := hit.firstEnd hs
  rw [hpos]
  exact recounts_eq_zero_of fun i hi => h _ (he.none i (by omega))

theorem reports_lines (hs : sc.SmallInv s) (hsmall : sc.size < 2^31)
    (hle : 1 + newlines sc.fb s.startpos ≤ s.linum) :
    ∀ x, x ∈ reports (sc.run fuel s).log →
      1 + newlines sc.fb (x.1+sc.patlen) ≤ x.2 ∧
      (sc.opt.Steady → s.linum = 1 + newlines sc.fb s.startpos →
        x.2 = 1 + newlines sc.fb (x.1+sc.patlen)) := by
  induction fuel generalizing s with
  | zero => exact fun x hx => (List.not_mem_nil hx).elim
  | succ fuel ih =>
    rcases reports_run_cases sc fuel s with ⟨hl,-⟩ | ⟨r,hit,⟨hl,-⟩ | ⟨s',hv,hl⟩⟩
    · rw [hl]
      exact fun x hx => (List.not_mem_nil hx).elim
    · have heq := hit.linum_eq hs hsmall
      rw [hl]
      intro x hx
      obtain rfl := List.mem_singleton.mp hx
      refine ⟨by simp only; omega,fun hsteady hlinum => ?_⟩
      have hzero := recounts_of_steady hsteady hit hs.startpos
      simp only
      omega
    · have heq := hit.linum_eq hs hsmall
      obtain ⟨hstart,hlinum⟩ := hit.head hs.startpos (by omega) hv
      have hrest := ih (smallInv_step hsmall s s' hs hv) (by rw [hstart,hlinum]; omega)
      rw [hl]
      intro x hx
      rcases List.mem_cons.mp hx with rfl | hx
      · refine ⟨by simp only; omega,fun hsteady hlinum => ?_⟩
        have hzero := recounts_of_steady hsteady hit hs.startpos
        simp only
        omega
      · obtain ⟨hge,heq'⟩ := hrest x hx
        refine ⟨hge,fun hsteady hlinum' => heq' hsteady ?_⟩
        have hzero := recounts_of_steady hsteady hit hs.startpos
        rw [hstart,hlinum]
        omega

end Scan

/-- Where the pattern has no border that the one fallback loses, a match loop that ends has
reported as many occurrences as can be found in the file without overlap. -/
theorem scan_most (sc : Scan) (st : Statics) (b : Buffer) (hsmall : sc.size < 2^31)
    (hcap : 0 < b.cap) (hloss : sc.opt.Lossless) {f : ScanLoop}
    (hends : (sc.checkedRun (sc.size+1) (scanInit st b)).val = some f) {l : List Nat}
    (hocc : ∀ q, q ∈ l → q+sc.patlen ≤ sc.size ∧
      Occurs sc.opt.searchPattern sc.fb sc.patlen q)
    (hapart : l.Pairwise fun q q' => q+sc.patlen ≤ q') :
    l.length ≤ (reports (sc.checkedRun (sc.size+1) (scanInit st b)).log).length := by
  have hnaive := Scan.naive_of_lossless hloss (Scan.smallInv_init st hcap) hsmall
    (Nat.lt_succ_of_le (Nat.sub_le _ _))
  have hmost := hnaive.most (fun q hq => ⟨Nat.zero_le q,hocc q hq⟩) hapart
  have hin := (Scan.checkedRun_ends_iff sc st hsmall hcap).mp ⟨f,hends⟩
  rw [Scan.checkedRun_eq hsmall hcap hin]
  rwa [List.length_map] at hmost

theorem scan_most_aa :
    2 ≤ (reports (scanAa.checkedRun 4 (scanInit ⟨0,0⟩ freshBuffer)).log).length := by
  have honce : scanAa.opt.FirstOnce := by decide
  have hcap : 0 < freshBuffer.cap := by decide
  obtain ⟨f,hends⟩ := (Scan.checkedRun_ends_iff scanAa ⟨0,0⟩ (by decide) hcap).mpr
    fun s hs r hit => hit.contained_of_le (Scan.smallInv_checked (by decide) hcap hs).startpos
      (by decide)
  exact scan_most scanAa ⟨0,0⟩ freshBuffer (by decide) (by decide) honce.lossless hends
    (l := [0,1]) (by decide) (by decide)

/-- The line number of a report is never too small, and it is that of the line on which
the match ends when no prefix of the pattern makes a search start over at a newline. -/
theorem scan_lines (sc : Scan) (st : Statics) (b : Buffer) (hsmall : sc.size < 2^31)
    (hcap : 0 < b.cap) (fuel : Nat) :
    ∀ x, x ∈ reports (sc.run fuel (scanInit st b)).log →
      1 + newlines sc.fb (x.1+sc.patlen) ≤ x.2 ∧
      (sc.opt.Steady → x.2 = 1 + newlines sc.fb (x.1+sc.patlen)) := by
  have hinit : sc.SmallInv (scanInit st b) := Scan.smallInv_init st hcap
  have hzero : 1 + newlines sc.fb (scanInit st b).startpos = (scanInit st b).linum := rfl
  intro x hx
  obtain ⟨hge,heq⟩ := Scan.reports_lines hinit hsmall (Nat.le_of_eq hzero) x hx
  exact ⟨hge,fun hsteady => heq hsteady hzero.symm⟩

theorem scan_lines_xay : (3,2) ∈ reports (scanXay.run 8 (scanInit ⟨0,0⟩ freshBuffer)).log ∧
    2 = 1 + newlines scanXay.fb (3+2) := by
  have hmem : (3,2) ∈ reports (scanXay.run 8 (scanInit ⟨0,0⟩ freshBuffer)).log := by
    decide +kernel
  have honce : scanXay.opt.FirstOnce := by decide
  exact ⟨hmem,(scan_lines scanXay ⟨0,0⟩ freshBuffer (by decide) (by decide) 8 _ hmem).2
    honce.steady⟩

end SSearcher
