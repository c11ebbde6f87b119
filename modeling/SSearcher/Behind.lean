import SSearcher.Bounds
set_option autoImplicit false

namespace SSearcher
open Runs Memory Matching

/-- The bytes a mapping shows: the file, zeros up to the end of its last page, and
from there on whatever the process has mapped next. -/
def MappedFile.memory (f : MappedFile) (behind : Ptr) : Ptr :=
  fun i => if i < mapEnd f.size then f.fb i else behind i

theorem load_congr {α : Type} {m m' : Nat → α} {i : Nat} (h : m i = m' i) (r : Region) :
    load r m i = load r m' i := by unfold load; rw [h]

theorem kmpStep_congr {k : Kmp} {t t' : Ptr} {n : Nat} (h : ∀ i, i < n → t i = t' i)
    (s : KmpLoop) : kmpStep k t n s = kmpStep k t' n s := by
  unfold kmpStep
  by_cases hlt : s.textPos < n
  · rw [load_congr (h _ hlt)]
  · rw [if_neg hlt,if_neg hlt]

theorem kmpMatch_congr {k : Kmp} {t t' : Ptr} {n : Nat} (h : ∀ i, i < n → t i = t' i)
    (linum : Nat) : kmpMatch k t n linum = kmpMatch k t' n linum := by
  unfold kmpMatch
  rw [funext (kmpStep_congr h)]

namespace Scan
variable {sc : Scan} {behind : Ptr} {s s' : ScanLoop} {r : KmpRet}

def memory (sc : Scan) (behind : Ptr) : Ptr := sc.file.memory behind

def stepOver (sc : Scan) (behind : Ptr) : ScanLoop → Prog (ScanLoop ⊕ ScanLoop) :=
  matchStep sc.opt sc.kmp (sc.memory behind) sc.size

theorem memory_of_lt {i : Nat} (h : i < sc.size) : sc.memory behind i = sc.fb i :=
  if_pos (lt_mapEnd h)

/-- With zeros behind the mapping the bytes are those of `fb`. -/
theorem memory_zero : sc.memory (fun _ => 0) = sc.fb := by
  funext i
  rcases Nat.lt_or_ge i sc.size with h | h
  · exact memory_of_lt h
  · change (if i < mapEnd sc.file.size then sc.fb i else 0) = _
    rw [sc.fb_of_le h,ite_self]

theorem scanMatch_memory (hs : s.startpos ≤ sc.size) :
    scanMatch sc.kmp (sc.memory behind) sc.size s = scanMatch sc.kmp sc.fb sc.size s := by
  unfold scanMatch
  rw [subSize_startpos hs,kmpMatch_congr fun i hi => memory_of_lt (by omega)]

theorem Hit.of_memory (hs : s.startpos ≤ sc.size)
    (hr : (scanMatch sc.kmp (sc.memory behind) sc.size s).val = some r) (hf : r.found = true) :
    sc.Hit s r :=
  ⟨by rw [← hr,scanMatch_memory hs],hf⟩

theorem inv_stepOver (s s' : ScanLoop) (h : sc.Inv s)
    (hs : (sc.stepOver behind s).val = some (.inl s')) : sc.Inv s' := by
  rcases matchStep_cases hs with ⟨r,-,-,he⟩ | ⟨r,st,b,hr,hf,hw,he⟩
  · cases he
  · cases he
    exact ⟨(Hit.of_memory h.startpos hr hf).next h.startpos,h.lastlinum,
      workerWritebuffer_cap h.cap hw⟩

end Scan

/-- `i` bytes of text follow `start`, then a newline or NUL. -/
structure TextUntil (m : Ptr) (start i : Nat) : Prop where
  text : ∀ j, j < i → isText (m (start+j)) = true
  stop : isText (m (start+i)) = false

theorem textUntil_iff {content : Ptr} {start limit i n : Nat}
    (h : TextRun content start limit i) (hn : n < limit) : TextUntil content start n ↔ i = n := by
  constructor
  · intro hu
    have hle := h.le_of_stop hu.stop
    by_contra hne
    have hstop := h.stop (by omega)
    rw [hu.text i (by omega)] at hstop
    cases hstop
  · rintro rfl
    exact ⟨h.text,h.stop hn⟩

theorem textUntil_lineAt {m : Ptr} {pos patlen i : Nat} :
    TextUntil (lineAt m pos) (column m pos + patlen) i ↔ TextUntil m (pos+patlen) i := by
  have hat : ∀ j, lineAt m pos (column m pos + patlen + j) = m (pos+patlen+j) := by
    intro j
    simp only [lineAt]
    rw [← Nat.add_assoc,← Nat.add_assoc,lineStart_add_column]
  exact ⟨fun h => ⟨fun j hj => hat j ▸ h.text j hj,hat i ▸ h.stop⟩,
    fun h => ⟨fun j hj => (hat j).symm ▸ h.text j hj,(hat i).symm ▸ h.stop⟩⟩

/-- A record fits if its match ends within 1024 bytes of its line, and otherwise
only if the doubled capacity happens to leave room for the text up to the next newline
or NUL, wherever in memory that is. -/
theorem record_fits_iff (sc : Scan) (behind : Ptr) (st : Statics) (b : Buffer) (hcap : 0 < b.cap)
    {s : ScanLoop} (hs : Run.Reaches (sc.stepOver behind) (scanInit st b) s) {r : KmpRet}
    (hr : (scanMatch sc.kmp (sc.memory behind) sc.size s).val = some r) (hf : r.found = true)
    {pos : Nat} (hpos : Scan.matchAt s r = pos) {n : Nat} {b₁ : Buffer}
    (hb₁ : (writefBuffer s.buffer linumFormat r.linum).val = some (n,b₁)) :
    FitsCap b₁ (lineAt (sc.memory behind) pos) 1024 (column (sc.memory behind) pos) sc.patlen ↔
      column (sc.memory behind) pos + sc.patlen ≤ 1024 ∨
        ∃ i, i < 2^31 ∧ TextUntil (sc.memory behind) (pos+sc.patlen) i ∧
          ∀ k, b₁.off+1047 ≤ b₁.cap*2^k →
            b₁.off+column (sc.memory behind) pos+sc.patlen+23+i ≤ b₁.cap*2^k := by
  have hi : sc.Inv s := hs.invariant Scan.inv_stepOver (Scan.inv_init st hcap)
  obtain ⟨b₂,hv,ha⟩ := writefBuffer_spec linumFormat r.linum hi.cap
  obtain rfl : b₂ = b₁ := by
    rw [hv,Option.some.injEq,Prod.mk.injEq] at hb₁
    exact hb₁.2
  have hle := (Scan.Hit.of_memory hi.startpos hr hf).matchAt_le hi.startpos
  have hfile : sc.size < 2^63 := sc.file.small
  have hadd := lineStart_add_column (sc.memory behind) pos
  rw [hpos] at hle
  obtain ⟨i,ht⟩ := exists_textRun (lineAt (sc.memory behind) pos)
    (column (sc.memory behind) pos + sc.patlen)
    (restLimit 1024 (column (sc.memory behind) pos) sc.patlen)
  rw [fitsCap_iff (ha.cap_pos hi.cap) ht]
  by_cases hcol : column (sc.memory behind) pos + sc.patlen ≤ 1024
  · have hlimit := ht.le
    rw [restLimit_eq hcol (by decide)] at hlimit
    refine iff_of_true ⟨by omega,fun k hk => ?_⟩ (.inl hcol)
    omega
  · have hwrap : 2^63 ≤ restLimit 1024 (column (sc.memory behind) pos) sc.patlen :=
      restLimit_wrap (by omega) (by omega)
    rw [or_iff_right hcol]
    constructor
    · rintro ⟨hsmall,hroom⟩
      exact ⟨i,hsmall,textUntil_lineAt.mp ((textUntil_iff ht (by omega)).mpr rfl),hroom⟩
    · rintro ⟨n,hsmall,hu,hroom⟩
      obtain rfl := (textUntil_iff ht (by omega)).mp (textUntil_lineAt.mpr hu)
      exact ⟨hsmall,hroom⟩

theorem record_fits_xay : ∃ b₁, FitsCap b₁ (lineAt (scanXay.memory fun _ => 97) 3) 1024
    (column (scanXay.memory fun _ => 97) 3) scanXay.patlen := by
  have hr : (scanMatch scanXay.kmp (scanXay.memory fun _ => 97) scanXay.size
      (scanInit ⟨0,0⟩ freshBuffer)).val = some ⟨true,2,3⟩ := by
    rw [Scan.scanMatch_memory (Nat.zero_le _)]
    decide
  have hpos : Scan.matchAt (scanInit ⟨0,0⟩ freshBuffer) ⟨true,2,3⟩ = 3 := by decide
  have hcol : column (scanXay.memory fun _ => 97) 3 ≤ 3 := Nat.sub_le _ _
  have hlen : scanXay.patlen = 2 := rfl
  obtain ⟨b₁,hv,-⟩ := writefBuffer_spec (b := freshBuffer) linumFormat 2 (by decide)
  exact ⟨b₁,(record_fits_iff scanXay (fun _ => 97) ⟨0,0⟩ freshBuffer (by decide) (.refl _) hr rfl
    hpos hv).mpr (.inl (by omega))⟩

theorem record_overflow : ∃ r n b₁,
    (scanMatch (scanLast 97 4096 (by decide)).kmp
      ((scanLast 97 4096 (by decide)).memory fun _ => 0) (scanLast 97 4096 (by decide)).size
      (scanInit ⟨0,0⟩ freshBuffer)).val = some r ∧ r.found = true ∧
    Scan.matchAt (scanInit ⟨0,0⟩ freshBuffer) r = 4096 ∧
    (writefBuffer freshBuffer linumFormat r.linum).val = some (n,b₁) ∧
    ¬ FitsCap b₁ (lineAt ((scanLast 97 4096 (by decide)).memory fun _ => 0) 4096) 1024
      (column ((scanLast 97 4096 (by decide)).memory fun _ => 0) 4096) 1 := by
  obtain ⟨r,hit,hpos⟩ := scanLast_hit (n := 4096) (h := by decide) (x := 97) (by decide)
    ⟨0,0⟩ freshBuffer
  have hsize := scanLast_size (x := 97) (n := 4096) (h := by decide)
  have hlen := hit.length_header (Scan.smallInv_init ⟨0,0⟩ (by decide)) (by rw [hsize]; decide)
  obtain ⟨b₁,hv,ha⟩ := writefBuffer_spec (b := freshBuffer) linumFormat r.linum (by decide)
  have hcap : b₁.cap = 4096 := ha.cap.eq_of_le (by simp only [freshBuffer,defaultSize]; omega)
  rw [Scan.memory_zero]
  refine ⟨r,_,b₁,hit.val,hit.found,hpos,hv,?_⟩
  obtain ⟨i,ht⟩ := exists_textRun (lineAt (scanLast 97 4096 (by decide)).fb 4096) (4096+1)
    (restLimit 1024 4096 1)
  rw [column,scanLast_line (by decide),fitsCap_iff (by rw [hcap]; decide) ht]
  rintro ⟨-,h⟩
  have h := h 0
  have hoff := ha.off
  rw [hcap] at h
  simp [freshBuffer] at h hoff
  omega

end SSearcher
