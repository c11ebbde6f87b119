import SSearcher.Scan
set_option autoImplicit false

namespace SSearcher
open Runs Memory Matching

namespace Scan
variable (sc : Scan)

def textAt (start : Nat) : Ptr := fun i => sc.fb (start+i)

/-- The first match in the text from `start` on ends with its byte `e`. -/
structure FirstEnd (start e : Nat) : Prop where
  lt : e < sc.size-start
  none : Searching sc.opt.searchPattern (selfRun sc.opt.searchPattern) (sc.textAt start)
    sc.patlen e
  full : stand sc.opt.searchPattern (selfRun sc.opt.searchPattern) (sc.textAt start) (e+1) =
    sc.patlen

/-- From `start` on, less than 2^31 bytes are left or a match ends within them; and
the first match ends below 2^32 in the file. -/
structure InRange (start : Nat) : Prop where
  search : sc.size-start < 2^31 ∨ ∃ e, e < 2^31 ∧ sc.FirstEnd start e
  ends : ∀ e, sc.FirstEnd start e → start+(e+1) < 2^32

/-- The search from `s` ends without overflow, its match position is the true one,
and so are the sums made of it. -/
structure TruePositions (s : ScanLoop) : Prop where
  search : ∃ r, (scanMatch sc.kmp sc.fb sc.size s).val = some r
  matchpos : ∀ r, sc.Hit s r → ∃ e, sc.FirstEnd s.startpos e ∧ r.matchpos+sc.patlen = e+1
  report : ∀ r, sc.Hit s r → matchAt s r = s.startpos+r.matchpos
  next : ∀ r, sc.Hit s r → u32 (s.startpos + u32 (r.matchpos+sc.patlen)) =
    s.startpos+r.matchpos+sc.patlen
  forward : ∀ r, sc.Hit s r → s.startpos ≤ u32 (s.startpos + u32 (r.matchpos+sc.patlen))

variable {sc}

theorem FirstEnd.eq {start e e' : Nat} (h : sc.FirstEnd start e) (h' : sc.FirstEnd start e') :
    e = e' := by
  have key : ∀ {a b : Nat}, sc.FirstEnd start a → sc.FirstEnd start b → ¬ a < b := by
    intro a b ha hb hlt
    have := hb.none (a+1) hlt
    rw [ha.full] at this
    exact Nat.lt_irrefl _ this
  have := key h h'
  have := key h' h
  omega

theorem scanMatch_val {s : ScanLoop} (hs : s.startpos ≤ sc.size) :
    (scanMatch sc.kmp sc.fb sc.size s).val =
      (kmpMatch sc.kmp (sc.textAt s.startpos) (sc.size-s.startpos) s.linum).val := by
  rw [scanMatch,Run.val_relabel,subSize_startpos hs]
  rfl

theorem Hit.firstEnd {s : ScanLoop} {r : KmpRet} (h : sc.Hit s r) (hs : s.startpos ≤ sc.size) :
    ∃ e, sc.FirstEnd s.startpos e ∧ r.matchpos+sc.patlen = e+1 := by
  have hv := h.val
  rw [scanMatch_val hs] at hv
  rcases kmpMatch_spec sc.prepared hv with ⟨hno,-⟩ | ⟨-,e,hlt,-,hnone,hfull,hpos⟩
  · rw [h.found] at hno
    cases hno
  · have hle := (stand_agree (p := sc.opt.searchPattern) (t := sc.textAt s.startpos)
      (fun _ => selfRun_border _) (e+1)).1
    rw [hfull] at hle
    exact ⟨e,⟨hlt,hnone,hfull⟩,by omega⟩

theorem FirstEnd.hit {s : ScanLoop} (hs : s.startpos ≤ sc.size) {e : Nat}
    (he : sc.FirstEnd s.startpos e) {r : KmpRet}
    (hr : (scanMatch sc.kmp sc.fb sc.size s).val = some r) : sc.Hit s r := by
  refine ⟨hr,?_⟩
  rw [scanMatch_val hs] at hr
  rcases kmpMatch_spec sc.prepared hr with ⟨-,hnone⟩ | ⟨hf,-⟩
  · have hlt := hnone (e+1) he.lt
    rw [he.full] at hlt
    exact absurd hlt (Nat.lt_irrefl _)
  · exact hf

theorem scanMatch_some_iff {s : ScanLoop} (hs : s.startpos ≤ sc.size) :
    (∃ r, (scanMatch sc.kmp sc.fb sc.size s).val = some r) ↔
      sc.size-s.startpos < 2^31 ∨ ∃ e, e < 2^31 ∧ sc.FirstEnd s.startpos e := by
  rw [scanMatch_val hs,kmpMatch_some_iff sc.prepared]
  refine or_congr_right ⟨?_,fun ⟨e,hsmall,he⟩ => ⟨e,he.lt,hsmall,he.full⟩⟩
  rintro ⟨e,hlt,hsmall,hfull⟩
  have hrun : ∀ k, 0 < k → selfRun sc.opt.searchPattern k < k :=
    fun k hk => (selfRun_border _ hk).1
  rcases searching_or_found (t := sc.textAt s.startpos) hrun sc.patPos (e+1) with
    hno | ⟨i,hi,hnone,hst⟩
  · have hlt := hno (e+1) (Nat.le_refl _)
    rw [hfull] at hlt
    exact absurd hlt (Nat.lt_irrefl _)
  · exact ⟨i,by omega,by omega,hnone,hst⟩

theorem truePositions_iff {s : ScanLoop} (hs : s.startpos ≤ sc.size) :
    sc.TruePositions s ↔ sc.InRange s.startpos := by
  constructor
  · intro h
    refine ⟨(scanMatch_some_iff hs).mp h.search,fun e he => ?_⟩
    obtain ⟨r,hr⟩ := h.search
    have hit := he.hit hs hr
    obtain ⟨e',he',hpos⟩ := hit.firstEnd hs
    obtain rfl := he.eq he'
    have hnext := h.next r hit
    have hlt := u32_lt (s.startpos + u32 (r.matchpos+sc.patlen))
    omega
  · intro h
    have hsum : ∀ r, sc.Hit s r → r.matchpos+sc.patlen ≤ 2^31 ∧
        s.startpos+r.matchpos+sc.patlen < 2^32 := by
      intro r hit
      obtain ⟨e,he,hpos⟩ := hit.firstEnd hs
      have hend := h.ends e he
      have hsmall := (hit.sound hs).2.1
      omega
    have hnext : ∀ r, sc.Hit s r → u32 (s.startpos + u32 (r.matchpos+sc.patlen)) =
        s.startpos+r.matchpos+sc.patlen := by
      intro r hit
      obtain ⟨hsmall,hlt⟩ := hsum r hit
      rw [u32_of_lt (x := r.matchpos+sc.patlen) (by omega),u32_of_lt (by omega),Nat.add_assoc]
    refine ⟨(scanMatch_some_iff hs).mpr h.search,fun r hit => hit.firstEnd hs,fun r hit => ?_,
      hnext,fun r hit => ?_⟩
    · obtain ⟨-,hlt⟩ := hsum r hit
      rw [matchAt,u32_of_lt (by omega),Nat.add_comm]
    · rw [hnext r hit]
      omega

end Scan

/-- The positions of a search are those of the file exactly when it stays in the range
of its integers; on a file below 2^31 bytes every search does. -/
theorem true_positions_iff (sc : Scan) (st : Statics) (b : Buffer) (hcap : 0 < b.cap)
    {s : ScanLoop} (hs : Run.Reaches sc.step (scanInit st b) s) :
    (sc.TruePositions s ↔ sc.InRange s.startpos) ∧
      (sc.size < 2^31 → sc.InRange s.startpos) := by
  have hi : sc.Inv s := hs.invariant Scan.inv_step (Scan.inv_init st hcap)
  have hstart := hi.startpos
  refine ⟨Scan.truePositions_iff hstart,fun hsmall => ⟨.inl (by omega),fun e he => ?_⟩⟩
  have hlt := he.lt
  omega

theorem true_positions_aa : scanAa.TruePositions (scanInit ⟨0,0⟩ freshBuffer) := by
  obtain ⟨hiff,hsmall⟩ := true_positions_iff scanAa ⟨0,0⟩ freshBuffer (by decide) (.refl _)
  exact hiff.mpr (hsmall (by decide))

def scanHuge : Scan := .of [98] (List.replicate (2^31) 97) false Scan.length_b
  (by rw [List.length_replicate]; decide)

/-- In 2^31 bytes without a match the int runs past its largest value. -/
theorem text_pos_overflows : ¬ scanHuge.TruePositions (scanInit ⟨0,0⟩ freshBuffer) := by
  have hsize : scanHuge.size = 2^31 := List.length_replicate
  have hfb : ∀ i, scanHuge.fb i ≠ 98 := by
    intro i
    change (List.replicate (2^31) (97 : UInt8)).getD i 0 ≠ 98
    rw [List.getD_eq_getElem?_getD,List.getElem?_replicate]
    split <;> decide
  intro h
  rcases ((Scan.truePositions_iff (Nat.zero_le _)).mp h).search with hlt | ⟨e,-,he⟩
  · rw [hsize] at hlt
    exact absurd hlt (by decide)
  · obtain ⟨r,hr⟩ := h.search
    have hit := he.hit (Nat.zero_le _) hr
    have hocc := (hit.sound (Nat.zero_le _)).2.2 0 Nat.one_pos
    exact hfb _ hocc

end SSearcher
