import Mathlib.Data.List.GetD
import SSearcher.WorkerSpec
set_option autoImplicit false

namespace SSearcher
open Runs Memory Matching

/-- A worker's pattern and the file it has mapped. -/
structure Scan where
  opt : Options
  file : MappedFile
  patPos : 0 < opt.searchPatlen
  patSmall : opt.searchPatlen < 2^31

namespace Scan

def of (pattern bytes : List UInt8) (listMatchingFiles : Bool)
    (hp : 0 < pattern.length ∧ pattern.length < 2^31)
    (hb : 0 < bytes.length ∧ bytes.length < 2^63) : Scan :=
  ⟨⟨ofList pattern,pattern.length,listMatchingFiles⟩,⟨bytes,hb.1,hb.2⟩,hp.1,hp.2⟩

theorem length_a : 0 < [(97 : UInt8)].length ∧ [(97 : UInt8)].length < 2^31 := by decide

theorem length_b : 0 < [(98 : UInt8)].length ∧ [(98 : UInt8)].length < 2^31 := by decide

variable (sc : Scan)

def fb : Ptr := sc.file.fb

def size : Nat := sc.file.size

def patlen : Nat := sc.opt.searchPatlen

/-- What kmp_prepare leaves at the start of the thread. -/
def kmp : Kmp :=
  ((kmpPrepare noKmp sc.opt.searchPattern sc.opt.searchPatlen).val).getD noKmp

def step : ScanLoop → Prog (ScanLoop ⊕ ScanLoop) := matchStep sc.opt sc.kmp sc.fb sc.size

def run (fuel : Nat) (s : ScanLoop) : Prog ScanLoop := matchLoop sc.opt sc.kmp sc.fb sc.size fuel s

theorem run_eq (fuel : Nat) (s : ScanLoop) : sc.run fuel s = Run.loop sc.step fuel s := rfl

theorem prepared : Prepared sc.kmp sc.opt.searchPattern sc.patlen := by
  obtain ⟨k,hv,hk⟩ := kmpPrepare_spec noKmp sc.opt.searchPattern sc.patPos sc.patSmall
  rw [kmp,hv]
  exact hk

theorem fb_of_le {i : Nat} (h : sc.size ≤ i) : sc.fb i = 0 :=
  List.getD_eq_default _ _ h

variable {sc}

/-- The search from the head `s` of the loop has found the match `r`. -/
structure Hit (sc : Scan) (s : ScanLoop) (r : KmpRet) : Prop where
  val : (scanMatch sc.kmp sc.fb sc.size s).val = some r
  found : r.found = true

def matchAt (s : ScanLoop) (r : KmpRet) : Nat := u32 (r.matchpos+s.startpos)

/-- What holds at the head of the match loop, for files of any size. -/
structure Inv (sc : Scan) (s : ScanLoop) : Prop where
  startpos : s.startpos ≤ sc.size
  lastlinum : s.lastlinum = 0
  cap : 0 < s.buffer.cap

theorem inv_init (st : Statics) {b : Buffer} (hb : 0 < b.cap) : sc.Inv (scanInit st b) :=
  ⟨Nat.zero_le _,rfl,hb⟩

theorem subSize_startpos {s : ScanLoop} (h : s.startpos ≤ sc.size) :
    subSize sc.size s.startpos = sc.size-s.startpos :=
  subSize_of_le h (Nat.lt_trans sc.file.small (by decide))

theorem Hit.sound {s : ScanLoop} {r : KmpRet} (h : sc.Hit s r) (hs : s.startpos ≤ sc.size) :
    s.startpos+r.matchpos+sc.patlen ≤ sc.size ∧ r.matchpos+sc.patlen ≤ 2^31 ∧
      Occurs sc.opt.searchPattern sc.fb sc.patlen (s.startpos+r.matchpos) := by
  have hv := h.val
  rw [scanMatch,Run.val_relabel,subSize_startpos hs] at hv
  obtain ⟨hle,hsmall,ho⟩ := kmpMatch_sound sc.prepared hv h.found
  exact ⟨by omega,hsmall,fun i hi => by rw [Nat.add_assoc]; exact ho i hi⟩

theorem Hit.matchAt_le {s : ScanLoop} {r : KmpRet} (h : sc.Hit s r) (hs : s.startpos ≤ sc.size) :
    matchAt s r + sc.patlen ≤ sc.size := by
  have hsound := h.sound hs
  have := u32_le (r.matchpos+s.startpos)
  unfold matchAt
  omega

theorem matchStep_cases {opt : Options} {k : Kmp} {fb : Ptr} {size : Nat} {s : ScanLoop}
    {x : ScanLoop ⊕ ScanLoop} (h : (matchStep opt k fb size s).val = some x) :
    (∃ r, (scanMatch k fb size s).val = some r ∧ r.found = false ∧
      x = .inr { s with linum := r.linum }) ∨
    ∃ r st b, (scanMatch k fb size s).val = some r ∧ r.found = true ∧
      (workerWritebuffer opt s.statics s.buffer fb (matchAt s r) r.linum s.lastlinum).val =
        some (st,b) ∧
      x = .inl ⟨u32 (s.startpos + u32 (r.matchpos+opt.searchPatlen)),r.linum,s.lastlinum,st,b⟩ := by
  obtain ⟨r,hr,h⟩ := Run.bind_eq_some.mp h
  cases hf : r.found with
  | false => exact .inl ⟨r,hr,hf,by simpa [hf,eq_comm] using h⟩
  | true =>
    simp only [hf,if_true,scanWrite,Run.bind_eq_some,Run.val_pure,Option.some.injEq] at h
    obtain ⟨s',⟨⟨st,b⟩,hw,rfl⟩,rfl⟩ := h
    exact .inr ⟨r,st,b,hr,hf,hw,rfl⟩

theorem step_cases {s : ScanLoop} {x : ScanLoop ⊕ ScanLoop} (h : (sc.step s).val = some x) :
    (∃ r, (scanMatch sc.kmp sc.fb sc.size s).val = some r ∧ r.found = false ∧
      x = .inr { s with linum := r.linum }) ∨
    ∃ r st b, sc.Hit s r ∧
      (workerWritebuffer sc.opt s.statics s.buffer sc.fb (matchAt s r) r.linum
        s.lastlinum).val = some (st,b) ∧
      x = .inl ⟨u32 (s.startpos + u32 (r.matchpos+sc.patlen)),r.linum,s.lastlinum,st,b⟩ := by
  rcases matchStep_cases h with h | ⟨r,st,b,hr,hf,hw,he⟩
  · exact .inl h
  · exact .inr ⟨r,st,b,⟨hr,hf⟩,hw,he⟩

theorem step_of_hit {s : ScanLoop} {r : KmpRet} (h : sc.Hit s r) :
    (sc.step s).val = (workerWritebuffer sc.opt s.statics s.buffer sc.fb (matchAt s r) r.linum
      s.lastlinum).val.map fun w =>
        .inl ⟨u32 (s.startpos + u32 (r.matchpos+sc.patlen)),r.linum,s.lastlinum,w.1,w.2⟩ := by
  rw [step,matchStep,Run.val_bind,h.val,Option.bind_some,if_pos h.found,Run.val_bind,scanWrite,
    Run.val_bind]
  unfold matchAt
  cases (workerWritebuffer sc.opt s.statics s.buffer sc.fb (u32 (r.matchpos+s.startpos))
    r.linum s.lastlinum).val <;> rfl

theorem Hit.next {s : ScanLoop} {r : KmpRet} (h : sc.Hit s r) (hs : s.startpos ≤ sc.size) :
    u32 (s.startpos + u32 (r.matchpos+sc.patlen)) ≤ sc.size := by
  have hsound := h.sound hs
  have := u32_le (s.startpos + u32 (r.matchpos+sc.patlen))
  have := u32_le (r.matchpos+sc.patlen)
  omega

end Scan

theorem workerWritebuffer_cap {opt : Options} {st st' : Statics} {b b' : Buffer} {fb : Ptr}
    {pos linum lastlinum : Nat} (hcap : 0 < b.cap)
    (h : (workerWritebuffer opt st b fb pos linum lastlinum).val = some (st',b')) :
    0 < b'.cap := by
  by_cases hne : linum ≠ lastlinum
  · obtain ⟨b₁,hv,ha⟩ := writefBuffer_spec linumFormat linum hcap
    rw [workerWritebuffer_record hne hv,Option.map_eq_some_iff] at h
    obtain ⟨⟨n,b₂⟩,hw,he⟩ := h
    have hcap₁ := ha.cap_pos hcap
    rw [← (Prod.mk.inj he).2]
    exact Nat.lt_of_lt_of_le hcap₁ (writelineColorBuffer_cap_le hcap₁ hw)
  · rw [workerWritebuffer] at h
    simp only [hne,if_false,Run.bind_eq_some,Run.val_pure,Option.some.injEq,Prod.mk.injEq] at h
    obtain ⟨_,-,_,-,⟨n,b₂⟩,hw,_,-,-,rfl⟩ := h
    exact Nat.lt_of_lt_of_le hcap (amendlineColorBuffer_cap_le hcap hw)

namespace Scan
variable {sc : Scan}

theorem inv_step (s s' : ScanLoop) (h : sc.Inv s) (hs : (sc.step s).val = some (.inl s')) :
    sc.Inv s' := by
  rcases step_cases hs with ⟨r,-,-,he⟩ | ⟨r,st,b,hit,hw,he⟩
  · cases he
  · cases he
    exact ⟨hit.next h.startpos,h.lastlinum,workerWritebuffer_cap h.cap hw⟩

/-- The head of the loop on a file whose indices fit an int: no position has
wrapped, and the line number is one a uint32_t can hold. -/
structure SmallInv (sc : Scan) (s : ScanLoop) : Prop extends sc.Inv s where
  linum_pos : 0 < s.linum
  linum_le : s.linum ≤ 1 + 2*s.startpos

theorem smallInv_init (st : Statics) {b : Buffer} (hb : 0 < b.cap) :
    sc.SmallInv (scanInit st b) :=
  ⟨inv_init st hb,Nat.one_pos,Nat.le_refl 1⟩

variable {s s' : ScanLoop} {r : KmpRet}

theorem Hit.matchAt_eq (h : sc.Hit s r) (hs : s.startpos ≤ sc.size) (hsmall : sc.size < 2^32) :
    matchAt s r = s.startpos+r.matchpos := by
  have hsound := h.sound hs
  rw [matchAt,u32_of_lt (by omega),Nat.add_comm]

theorem Hit.next_eq (h : sc.Hit s r) (hs : s.startpos ≤ sc.size) (hsmall : sc.size < 2^32) :
    u32 (s.startpos + u32 (r.matchpos+sc.patlen)) = matchAt s r + sc.patlen := by
  have hsound := h.sound hs
  rw [h.matchAt_eq hs hsmall,u32_of_lt (x := r.matchpos+sc.patlen) (by omega),
    u32_of_lt (by omega),Nat.add_assoc]

theorem Hit.linum (h : sc.Hit s r) (hs : sc.SmallInv s) (hsmall : sc.size < 2^31) :
    0 < r.linum ∧ r.linum ≤ 1 + 2*(matchAt s r + sc.patlen) := by
  have hstart := hs.startpos
  have hpos := hs.linum_pos
  have hle := hs.linum_le
  have hv := h.val
  rw [scanMatch,Run.val_relabel,subSize_startpos hs.startpos] at hv
  have hl := kmpMatch_linum sc.prepared (by omega) hv h.found
  rw [h.matchAt_eq hs.startpos (by omega)]
  omega

theorem smallInv_step (hsmall : sc.size < 2^31) (s s' : ScanLoop) (h : sc.SmallInv s)
    (hs : (sc.step s).val = some (.inl s')) : sc.SmallInv s' := by
  rcases step_cases hs with ⟨r,-,-,he⟩ | ⟨r,st,b,hit,hw,he⟩
  · cases he
  · have hinv := inv_step s s' h.toInv hs
    have hl := hit.linum h hsmall
    cases he
    refine ⟨hinv,hl.1,?_⟩
    simp only
    rw [hit.next_eq h.startpos (by omega)]
    exact hl.2

theorem length_lineRest_le {pos : Nat} (h : pos+sc.patlen ≤ sc.size) (limit : Nat) :
    (lineRest (lineAt sc.fb pos) (column sc.fb pos + sc.patlen) limit).length ≤
      sc.size-(pos+sc.patlen) := by
  obtain ⟨i,hi⟩ := exists_textRun (lineAt sc.fb pos) (column sc.fb pos + sc.patlen) limit
  have hle := (lineStart_isBol sc.fb pos).le
  rw [hi.length_eq]
  refine hi.le_of_stop ?_
  rw [lineAt,sc.fb_of_le (by unfold column; omega)]
  rfl

theorem length_recordText_le {pos : Nat} (h : pos+sc.patlen ≤ sc.size) :
    (recordText (lineAt sc.fb pos) 1024 (column sc.fb pos) sc.patlen).length ≤ sc.size+23 := by
  have hrest := length_lineRest_le h (restLimit 1024 (column sc.fb pos) sc.patlen)
  have hcol : column sc.fb pos ≤ pos := Nat.sub_le _ _
  simp only [recordText,List.length_append,length_slice,length_hiliColor,length_resetColor]
  omega

/-- A report on a small file always starts a record, and returns. -/
theorem Hit.appends (h : sc.Hit s r) (hs : sc.SmallInv s) (hsmall : sc.size < 2^31) :
    ∃ nll b₁ b', (workerWritebuffer sc.opt s.statics s.buffer sc.fb (matchAt s r) r.linum
        s.lastlinum).val = some (⟨nll,1⟩,b') ∧
      Appended s.buffer (linumFormat r.linum).length (linumFormat r.linum) b₁ ∧
      Appended b₁ 1047
        (recordText (lineAt sc.fb (matchAt s r)) 1024 (column sc.fb (matchAt s r)) sc.patlen)
        b' := by
  have hle := h.matchAt_le hs.startpos
  have hrest := length_lineRest_le hle
    (restLimit 1024 (column sc.fb (matchAt s r)) sc.patlen)
  have hrec := length_recordText_le hle
  have hl := h.linum hs hsmall
  refine workerWritebuffer_appends ?_ hs.cap (Nat.lt_of_le_of_lt hrest (by omega))
    (Nat.lt_of_le_of_lt hrec (by omega))
  rw [hs.lastlinum]
  omega

theorem step_total (hs : sc.SmallInv s) (hsmall : sc.size < 2^31) :
    ∃ x, (sc.step s).val = some x ∧
      ∀ s', x = .inl s' → sc.SmallInv s' ∧ sc.size-s'.startpos < sc.size-s.startpos := by
  obtain ⟨r,hr⟩ : ∃ r, (scanMatch sc.kmp sc.fb sc.size s).val = some r := by
    rw [scanMatch,Run.val_relabel,subSize_startpos hs.startpos]
    exact kmpMatch_total sc.prepared _ (by omega) _
  cases hf : r.found with
  | false =>
    refine ⟨.inr { s with linum := r.linum },?_,by simp⟩
    simp [step,matchStep,hr,hf]
  | true =>
    have hit : sc.Hit s r := ⟨hr,hf⟩
    obtain ⟨nll,b₁,b',hw,-⟩ := hit.appends hs hsmall
    have hv := step_of_hit hit
    rw [hw,Option.map_some] at hv
    refine ⟨_,hv,fun s' he => ⟨smallInv_step hsmall s s' hs (by rw [hv,he]),?_⟩⟩
    have hle := hit.matchAt_le hs.startpos
    have hge := hit.matchAt_eq hs.startpos (by omega)
    have hpos : 0 < sc.patlen := sc.patPos
    cases he
    simp only
    rw [hit.next_eq hs.startpos (by omega)]
    omega

theorem run_total (hs : sc.SmallInv s) (hsmall : sc.size < 2^31) {fuel : Nat}
    (hfuel : sc.size < fuel) : ∃ s', (sc.run fuel s).val = some s' :=
  Run.loop_total (fun _ h => step_total h hsmall) hs (by omega)

theorem within_scanMatch (sc : Scan) (s : ScanLoop) :
    Run.Only (Within [.pat,.table,.file]) (scanMatch sc.kmp sc.fb sc.size s) :=
  within_relabel ((kmpMatch_only sc.prepared _ _ _).mono InBounds.within) (by decide) _

theorem scanMatch_quiet (sc : Scan) (s : ScanLoop) :
    reports (scanMatch sc.kmp sc.fb sc.size s).log = [] :=
  reports_of_only ((within_scanMatch sc s).mono Within.access)

theorem step_reports (h : sc.Hit s r) :
    reports (sc.step s).log = [(matchAt s r,r.linum)] := by
  have hwrite : reports (scanWrite sc.opt sc.fb s r).log = [(matchAt s r,r.linum)] := by
    rw [scanWrite,Run.log_bind,reports_append,workerWritebuffer_reports]
    cases (workerWritebuffer sc.opt s.statics s.buffer sc.fb (u32 (r.matchpos+s.startpos))
      r.linum s.lastlinum).val <;> rfl
  rw [step,matchStep,Run.log_bind_of_val _ h.val,reports_append,scanMatch_quiet,
    List.nil_append,if_pos h.found,Run.log_bind,reports_append,hwrite]
  cases (scanWrite sc.opt sc.fb s r).val <;> rfl

theorem step_quiet (h : ∀ r, ¬ sc.Hit s r) : reports (sc.step s).log = [] := by
  rw [step,matchStep,Run.log_bind,reports_append,scanMatch_quiet,List.nil_append]
  cases hr : (scanMatch sc.kmp sc.fb sc.size s).val with
  | none => rfl
  | some r =>
    have hf : ¬ r.found = true := fun hf => h r ⟨hr,hf⟩
    simp [hf,reports]

/-- The reports of a loop: none, or one for the match at its head and then, if
that returns, those of the loop from the next head on. -/
theorem reports_run_cases (sc : Scan) (fuel : Nat) (s : ScanLoop) :
    (reports (sc.run (fuel+1) s).log = [] ∧ ∀ r, ¬ sc.Hit s r) ∨
    ∃ r, sc.Hit s r ∧
      ((reports (sc.run (fuel+1) s).log = [(matchAt s r,r.linum)] ∧ (sc.step s).val = none) ∨
      ∃ s', (sc.step s).val = some (.inl s') ∧ reports (sc.run (fuel+1) s).log =
        (matchAt s r,r.linum) :: reports (sc.run fuel s').log) := by
  by_cases hhit : ∃ r, sc.Hit s r
  · obtain ⟨r,hit⟩ := hhit
    refine .inr ⟨r,hit,?_⟩
    have hv := step_of_hit hit
    cases hw : (workerWritebuffer sc.opt s.statics s.buffer sc.fb (matchAt s r) r.linum
      s.lastlinum).val with
    | none =>
      rw [hw,Option.map_none] at hv
      exact .inl ⟨by rw [run_eq,Run.loop_of_none fuel hv]; exact step_reports hit,hv⟩
    | some w =>
      rw [hw,Option.map_some] at hv
      refine .inr ⟨_,hv,?_⟩
      rw [run_eq,Run.loop_of_inl fuel hv,reports_append]
      exact congrArg (· ++ _) (step_reports hit)
  · refine .inl ⟨?_,fun r hr => hhit ⟨r,hr⟩⟩
    have hquiet := step_quiet fun r hr => hhit ⟨r,hr⟩
    cases hv : (sc.step s).val with
    | none => rw [run_eq,Run.loop_of_none fuel hv]; exact hquiet
    | some x =>
      rcases step_cases hv with ⟨r,-,-,rfl⟩ | ⟨r,_,_,hit,-⟩
      · rw [run_eq,Run.loop_of_inr fuel hv]; exact hquiet
      · exact (hhit ⟨r,hit⟩).elim

theorem Hit.head (h : sc.Hit s r) (hs : s.startpos ≤ sc.size) (hsmall : sc.size < 2^32)
    (hv : (sc.step s).val = some (.inl s')) :
    s'.startpos = matchAt s r + sc.patlen ∧ s'.linum = r.linum := by
  rw [step_of_hit h,Option.map_eq_some_iff] at hv
  obtain ⟨w,-,hw⟩ := hv
  cases hw
  exact ⟨h.next_eq hs hsmall,rfl⟩

/-- The reported positions are occurrences inside the file, each at least the
length of the pattern behind all before it. -/
theorem reports_spaced (hsmall : sc.size < 2^32) (fuel : Nat) (hs : sc.Inv s) :
    (∀ x, x ∈ reports (sc.run fuel s).log → s.startpos ≤ x.1 ∧ x.1+sc.patlen ≤ sc.size ∧
      Occurs sc.opt.searchPattern sc.fb sc.patlen x.1) ∧
    (reports (sc.run fuel s).log).Pairwise fun x y => x.1+sc.patlen ≤ y.1 := by
  induction fuel generalizing s with
  | zero => simp [run,matchLoop,Run.loop,reports]
  | succ fuel ih =>
    rcases reports_run_cases sc fuel s with ⟨h,-⟩ | ⟨r,hit,⟨h,-⟩ | ⟨s',hv,h⟩⟩
    · simp [h]
    · have hsound := hit.sound hs.startpos
      have he := hit.matchAt_eq hs.startpos hsmall
      simp only [h,List.mem_singleton,forall_eq,List.pairwise_singleton,and_true]
      exact ⟨by omega,by omega,he ▸ hsound.2.2⟩
    · have hsound := hit.sound hs.startpos
      have he := hit.matchAt_eq hs.startpos hsmall
      have hstart := (hit.head hs.startpos hsmall hv).1
      obtain ⟨hmem,hpair⟩ := ih (inv_step s s' hs hv)
      rw [h,List.forall_mem_cons,List.pairwise_cons]
      refine ⟨⟨⟨by simp only; omega,by simp only; omega,he ▸ hsound.2.2⟩,fun x hx => ?_⟩,
        fun x hx => ?_,hpair⟩
      · obtain ⟨hx₁,hx₂⟩ := hmem x hx
        exact ⟨by omega,hx₂⟩
      · have := (hmem x hx).1
        simp only
        omega

end Scan

def scanAa : Scan := .of [97] [97,97,10] false Scan.length_a (by decide)

end SSearcher
