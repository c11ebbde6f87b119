import SSearcher.Search
import SSearcher.Records
set_option autoImplicit false

namespace SSearcher
open Runs Memory Matching

theorem mem_memcpy_store {rd rs : Region} {dst src : Ptr} {d s n x : Nat} :
    .store rd x ∈ (memcpy rd rs dst d src s n).log ↔ d ≤ x ∧ x < d+n := by
  simp only [log_memcpy,List.mem_append,List.mem_map,List.mem_range]
  constructor
  · rintro (⟨i,-,he⟩ | ⟨i,hi,he⟩)
    · cases he
    · cases he
      omega
  · rintro ⟨hd,hx⟩
    exact .inr ⟨x-d,by omega,by rw [Nat.add_sub_cancel' hd]⟩

theorem mem_memcpy_load {rd rs r : Region} {dst src : Ptr} {d s n x : Nat} :
    .load r x ∈ (memcpy rd rs dst d src s n).log ↔ r = rs ∧ s ≤ x ∧ x < s+n := by
  simp only [log_memcpy,List.mem_append,List.mem_map,List.mem_range]
  constructor
  · rintro (⟨i,hi,he⟩ | ⟨i,-,he⟩)
    · cases he
      exact ⟨rfl,by omega,by omega⟩
    · cases he
  · rintro ⟨rfl,hs,hx⟩
    exact .inl ⟨x-s,by omega,by rw [Nat.add_sub_cancel' hs]⟩

variable {b b₁ : Buffer} {content : Ptr} {len off1 colorlen i x : Nat}

theorem mem_store_writelineColorBuffer
    (hg : (checkGrow b (len+sizeofHili+3)).val = some b₁)
    (hi : TextRun content (off1+colorlen) (restLimit len off1 colorlen) i) (hsmall : i < 2^31) :
    .store .buf x ∈ (writelineColorBuffer b content len off1 colorlen).log ↔
      .store .buf x ∈ (checkGrow b (len+sizeofHili+3)).log ∨
        b₁.off ≤ x ∧ x < b₁.off + (recordText content len off1 colorlen).length := by
  have hloop := restLoop_val hi
  rw [if_pos hsmall] at hloop
  have hno : .store .buf x ∉ (restLoop content (off1+colorlen) (restLimit len off1 colorlen)).log := by
    intro hx
    obtain ⟨_,-,-,-,he⟩ := (mem_restLoop_log hi).mp hx
    cases he
  unfold restLimit at hloop hno
  rw [writelineColorBuffer,Run.mem_log_bind,hg]
  refine or_congr_right ?_
  simp only [Run.mem_log_bind,val_memcpy,Option.some.injEq,exists_eq_left',mem_memcpy_store,
    hloop,hno,false_or,Run.log_pure,List.not_mem_nil,or_false,sizeofHili_eq,
    hi.length_recordText]
  omega

/-- A call of the colour writer returns, and stores nothing beyond the capacity
its growth check has established. -/
def FitsCap (b : Buffer) (content : Ptr) (len off1 colorlen : Nat) : Prop :=
  ∃ n b', (writelineColorBuffer b content len off1 colorlen).val = some (n,b') ∧
    ∀ x, .store .buf x ∈ (writelineColorBuffer b content len off1 colorlen).log → x < b'.cap

theorem fitsCap_of_val {n : Nat} {b' : Buffer}
    (hv : (writelineColorBuffer b content len off1 colorlen).val = some (n,b')) :
    FitsCap b content len off1 colorlen ↔
      ∀ x, .store .buf x ∈ (writelineColorBuffer b content len off1 colorlen).log → x < b'.cap := by
  constructor
  · rintro ⟨n',b'',hv',h⟩
    obtain rfl : b'' = b' := (Prod.mk.inj (Option.some.inj (hv'.symm.trans hv))).2
    exact h
  · exact fun h => ⟨n,b',hv,h⟩

theorem fitsCap_iff (hcap : 0 < b.cap)
    (hi : TextRun content (off1+colorlen) (restLimit len off1 colorlen) i) :
    FitsCap b content len off1 colorlen ↔ i < 2^31 ∧
      ∀ k, b.off+len+23 ≤ b.cap*2^k → b.off+off1+colorlen+23+i ≤ b.cap*2^k := by
  obtain ⟨b₁,hv,hg,hlog⟩ := checkGrow_spec (len+sizeofHili+3) hcap
  have hval := writelineColorBuffer_val hv hi
  have hfits := hg.cap.fits_iff (x := b.off+off1+colorlen+23+i)
  have hoff := hg.off
  have hlen := hi.length_recordText
  rw [sizeofHili_eq,← Nat.add_assoc,← Nat.add_assoc] at hfits
  rw [← hfits]
  constructor
  · rintro ⟨n,b',hb',hstores⟩
    by_cases hsmall : i < 2^31
    · rw [hval,if_pos hsmall,Option.some.injEq,Prod.mk.injEq] at hb'
      refine ⟨hsmall,?_⟩
      have hx := hstores (b₁.off + (recordText content len off1 colorlen).length - 1)
        ((mem_store_writelineColorBuffer hv hi hsmall).mpr (.inr ⟨by omega,by omega⟩))
      rw [← hb'.2] at hx
      simp only at hx
      omega
    · rw [hval,if_neg hsmall] at hb'
      cases hb'
  · rintro ⟨hsmall,hle⟩
    refine ⟨_,_,by rw [hval,if_pos hsmall],fun x hx => ?_⟩
    rcases (mem_store_writelineColorBuffer hv hi hsmall).mp hx with hx | hx
    · obtain ⟨y,he,hy⟩ := hlog _ hx
      cases he
      exact hy
    · simp only
      omega

/-- Past 1024 bytes of its line a match makes the copy limit wrap around. -/
theorem restLimit_wrap {col m : Nat} (h : 1024 < col+m) (hsmall : col+m < 2^63) :
    2^63 ≤ restLimit 1024 col m := by
  unfold restLimit subSize
  omega

theorem lineRest_stop {fb : Ptr} {start limit : Nat} (h : isText (fb start) = false) :
    lineRest fb start limit = [] := by
  obtain ⟨i,hi⟩ := exists_textRun fb start limit
  have hle := hi.le_of_stop (d := 0) h
  exact List.eq_nil_of_length_eq_zero (by rw [hi.length_eq]; omega)

variable {sc : Scan}

theorem lineRest_file {start limit : Nat} (hs : start ≤ sc.size) (h : sc.size ≤ start+limit) :
    lineRest sc.fb start limit = (sc.file.bytes.drop start).takeWhile isText := by
  obtain ⟨k,rfl⟩ : ∃ k, limit = sc.size-start+k := ⟨start+limit-sc.size,by omega⟩
  have hdrop : slice sc.fb start (sc.size-start) = sc.file.bytes.drop start := by
    apply List.ext_getElem
    · simp [Scan.size,MappedFile.size]
    · intro i hi hd
      simp only [List.length_drop] at hd
      simp only [slice,List.getElem_map,List.getElem_range,List.getElem_drop]
      exact List.getD_eq_getElem _ _ (by omega)
  have hzero : (slice sc.fb (start+(sc.size-start)) k).takeWhile isText = [] := by
    rw [Nat.add_sub_cancel' hs]
    exact lineRest_stop (by rw [sc.fb_of_le (Nat.le_refl _)]; rfl)
  rw [lineRest,slice_add,List.takeWhile_append,hzero,List.append_nil,hdrop]
  split
  · rename_i hall
    exact ((List.takeWhile_sublist _).eq_of_length hall).symm
  · rfl

theorem Scan.exists_hit (sc : Scan) (st : Statics) (b : Buffer)
    (hc : Complete noKmp sc.opt.searchPattern sc.patlen sc.fb sc.size 1) {q : Nat}
    (hq : q+sc.patlen ≤ sc.size) (ho : Occurs sc.opt.searchPattern sc.fb sc.patlen q) :
    ∃ r, sc.Hit (scanInit st b) r ∧ r.matchpos ≤ q := by
  obtain ⟨r,hr,hf,hle⟩ := hc q hq ho
  obtain ⟨k,hv,-,hsearch⟩ := search_val noKmp sc.opt.searchPattern sc.fb sc.size 1 sc.patPos
    sc.patSmall
  have hk : sc.kmp = k := by rw [Scan.kmp,hv]; rfl
  refine ⟨r,⟨?_,hf⟩,hle⟩
  have hfb : (fun i => sc.fb (0+i)) = sc.fb := by funext i; rw [Nat.zero_add]
  rw [scanMatch,Run.val_relabel,Scan.subSize_startpos (Nat.zero_le _),hk]
  simp only [scanInit,hfb,Nat.sub_zero]
  rw [← hr]
  exact hsearch.symm

def scanLast (x : UInt8) (n : Nat) (h : n < 2^31-1) : Scan :=
  .of [98] (List.replicate n x ++ [98]) false Scan.length_b (by simp; omega)

section
variable {x : UInt8} {n : Nat} {h : n < 2^31-1}

theorem scanLast_size : (scanLast x n h).size = n+1 := by
  simp [scanLast,Scan.of,Scan.size,MappedFile.size]

theorem scanLast_fb (i : Nat) :
    (scanLast x n h).fb i = if i < n then x else if i = n then 98 else 0 := by
  change (List.replicate n x ++ [98]).getD i 0 = _
  split
  · rename_i hi
    rw [List.getD_eq_getElem?_getD,List.getElem?_append_left (by simpa using hi)]
    simp [hi]
  · rename_i hi
    obtain ⟨j,rfl⟩ : ∃ j, i = n+j := ⟨i-n,by omega⟩
    cases j <;> simp

theorem scanLast_hit (hx : x ≠ 98) (st : Statics) (b : Buffer) :
    ∃ r, (scanLast x n h).Hit (scanInit st b) r ∧ Scan.matchAt (scanInit st b) r = n := by
  have hsize := scanLast_size (x := x) (h := h)
  have hfb := scanLast_fb (x := x) (h := h)
  have hocc : Occurs (scanLast x n h).opt.searchPattern (scanLast x n h).fb 1 n := by
    intro i hi
    obtain rfl : i = 0 := by omega
    simp [hfb]
    rfl
  obtain ⟨r,hit,hle⟩ := Scan.exists_hit (scanLast x n h) st b
    (complete_single _ _ _ (by rw [hsize]; omega) 1) (q := n) (by rw [hsize]; exact Nat.le_refl _) hocc
  refine ⟨r,hit,?_⟩
  have hsound := (hit.sound (Nat.zero_le _)).2.2 0 Nat.one_pos
  have hpos := hit.matchAt_eq (Nat.zero_le _) (by rw [hsize]; omega)
  have hge : ¬ r.matchpos < n := by
    intro hlt
    simp [scanInit,hfb,hlt] at hsound
    exact hx hsound
  rw [hpos]
  simp only [scanInit]
  omega

end

theorem scanLast_line {x : UInt8} {n : Nat} {h : n < 2^31-1} (hx : x ≠ newline) :
    lineStart (scanLast x n h).fb n = 0 :=
  (lineStart_isBol _ _).eq ⟨Nat.zero_le _,.inl rfl,fun i _ hi => by rwa [scanLast_fb,if_pos hi]⟩

theorem Scan.Hit.length_header {s : ScanLoop} {r : KmpRet} (hit : sc.Hit s r)
    (hs : sc.SmallInv s) (hsmall : sc.size < 2^31) : (linumFormat r.linum).length ≤ 23 := by
  have hle := hit.matchAt_le hs.startpos
  have hlinum := hit.linum hs hsmall
  exact length_linumFormat_le (d := 10) (by decide) (by omega)

theorem checkGrow_noLoad {b : Buffer} {len x : Nat} {r : Region} :
    .load r x ∉ (checkGrow b len).log := by
  unfold checkGrow
  split
  · simp [bufferGrow,Run.mem_log_bind,growLoop_log]
  · simp

theorem mem_load_writelineColorBuffer {b : Buffer} {content : Ptr} {len off1 colorlen i x : Nat}
    (hcap : 0 < b.cap)
    (hi : TextRun content (off1+colorlen) (restLimit len off1 colorlen) i) :
    .load .content x ∈ (writelineColorBuffer b content len off1 colorlen).log ↔
      x < off1+colorlen ∨
        ∃ j, j ≤ i ∧ j < restLimit len off1 colorlen ∧ j < 2^31 ∧ x = off1+colorlen+j := by
  obtain ⟨b₁,hv,-⟩ := checkGrow_spec (len+sizeofHili+3) hcap
  have hle := hi.le
  have hloop : ∀ y, .load .content y ∈
      (restLoop content (off1+colorlen) (restLimit len off1 colorlen)).log ↔
        ∃ j, j ≤ i ∧ j < restLimit len off1 colorlen ∧ j < 2^31 ∧ y = off1+colorlen+j := by
    intro y
    rw [mem_restLoop_log hi]
    simp
  have hrest : (∃ a, (if i < 2^31 then some i else none) = some a ∧
      (off1+colorlen ≤ x ∧ x < off1+colorlen+a)) ↔
      i < 2^31 ∧ off1+colorlen ≤ x ∧ x < off1+colorlen+i := by
    split
    · rename_i hsmall
      rw [and_iff_right hsmall]
      exact ⟨fun ⟨a,ha,hx⟩ => by cases ha; exact hx,fun hx => ⟨i,rfl,hx⟩⟩
    · rename_i hlarge
      exact iff_of_false (by simp) fun h => hlarge h.1
  have hval := restLoop_val hi
  unfold restLimit at hloop hval hle ⊢
  rw [writelineColorBuffer,Run.mem_log_bind,hv,or_iff_right checkGrow_noLoad]
  simp only [Run.mem_log_bind,val_memcpy,Option.some.injEq,exists_eq_left',mem_memcpy_load,
    hloop,hval,Run.log_pure,List.not_mem_nil,or_false,exists_false,and_false,reduceCtorEq,
    false_and,false_or,true_and,hrest]
  constructor
  · rintro (h | h | h | ⟨hsmall,hge,hlt⟩)
    · exact .inl (by omega)
    · exact .inl (by omega)
    · exact .inr h
    · exact .inr ⟨x-(off1+colorlen),by omega,by omega,by omega,by omega⟩
  · rintro (h | h)
    · rcases Nat.lt_or_ge x off1 with hx | hx
      · exact .inl (by omega)
      · exact .inr (.inl ⟨hx,h⟩)
    · exact .inr (.inr (.inl h))

theorem mem_load_relabel {α : Type} {p : Prog α} (hp : Run.Only (Within [.buf,.lit,.content]) p)
    {base x : Nat} : Event.load .file x ∈ (p.relabel (Event.rebase .content .file base)).log ↔
      ∃ y, x = base+y ∧ Event.load .content y ∈ p.log := by
  simp only [Run.log_relabel,List.mem_map]
  constructor
  · rintro ⟨e,he,heq⟩
    cases e with
    | load r i =>
      have hr := hp _ he
      simp only [Event.rebase] at heq
      split at heq
      · rename_i hc
        cases heq
        exact ⟨i,rfl,hc ▸ he⟩
      · cases heq
        simp [Within] at hr
    | store r i => simp only [Event.rebase] at heq; split at heq <;> cases heq
    | record => cases heq
    | amend => cases heq
  · rintro ⟨y,rfl,hy⟩
    exact ⟨_,hy,rfl⟩

section
variable {opt : Options} {st : Statics} {b b₁ : Buffer} {fb : Ptr} {pos linum lastlinum n : Nat}

theorem mem_workerWritebuffer (hne : linum ≠ lastlinum)
    (hv : (writefBuffer b linumFormat linum).val = some (n,b₁)) {e : Event} :
    e ∈ (workerWritebuffer opt st b fb pos linum lastlinum).log ↔
      e ∈ (beginOfLine fb pos).log ∨ e = .record pos linum ∨
        e ∈ (writefBuffer b linumFormat linum).log ∨
        e ∈ ((writelineColorBuffer b₁ (lineAt fb pos) 1024 (column fb pos)
          opt.searchPatlen).relabel (.rebase .content .file (lineStart fb pos))).log := by
  rw [workerWritebuffer,Run.mem_log_bind]
  refine or_congr_right ?_
  simp only [beginOfLine_val,Option.some.injEq,exists_eq_left']
  rw [if_pos hne]
  simp only [Run.mem_log_bind,Run.log_emit,List.mem_singleton,Run.val_emit,hv,Option.some.injEq,
    exists_eq_left',Run.log_pure,List.not_mem_nil,and_false,exists_false,or_false,true_and,
    exists_const]
  exact Iff.rfl

theorem mem_load_workerWritebuffer {x : Nat}
    (hv : (writefBuffer b linumFormat linum).val = some (n,b₁)) :
    .load .file x ∈ (workerWritebuffer opt st b fb pos linum lastlinum).log ↔
      .load .file x ∈ (beginOfLine fb pos).log ∨ linum ≠ lastlinum ∧
        ∃ y, x = lineStart fb pos + y ∧ .load .content y ∈ (writelineColorBuffer b₁
          (lineAt fb pos) 1024 (column fb pos) opt.searchPatlen).log := by
  by_cases hne : linum ≠ lastlinum
  · have hw : .load .file x ∉ (writefBuffer b linumFormat linum).log := by
      intro h
      have := within_writefBuffer _ h
      simp [Within] at this
    rw [mem_workerWritebuffer hne hv,mem_load_relabel within_writelineColorBuffer,
      and_iff_right hne,or_iff_right hw]
    exact or_congr_right (or_iff_right (by simp))
  · rw [workerWritebuffer,Run.mem_log_bind]
    refine or_congr_right ?_
    simp only [beginOfLine_val,Option.some.injEq,exists_eq_left']
    rw [if_neg hne]
    refine iff_of_false (fun h => ?_) fun h => hne h.1
    rcases Run.mem_log_bind.mp h with h | ⟨_,-,h⟩
    · simp at h
    rcases Run.mem_log_bind.mp h with h | ⟨_,-,h⟩
    · have := within_amendlineColorBuffer _ h
      simp [Within] at this
    · simp at h

end

/-- The end of the last page of a mapping of `n` bytes. -/
def mapEnd (n : Nat) : Nat := (n+4095)/4096*4096

/-- The bytes the copy loop may look at before its limit, or its int, runs out. -/
def scanLimit (col m : Nat) : Nat := if col+m ≤ 1024 then 1024-col-m else 2^31

/-- Something ends the text after the match before the file does. -/
def Stops (sc : Scan) (pos : Nat) : Prop :=
  (∃ i, pos+sc.patlen ≤ i ∧ i < sc.size ∧ isText (sc.fb i) = false) ∨
    scanLimit (column sc.fb pos) sc.patlen ≤ sc.size-(pos+sc.patlen)

theorem lt_mapEnd {n i : Nat} (h : i < n) : i < mapEnd n := by
  unfold mapEnd
  omega

theorem size_lt_mapEnd (n : Nat) : n < mapEnd n ↔ n%4096 ≠ 0 := by
  unfold mapEnd
  omega

variable {sc : Scan}

theorem stops_iff {pos i : Nat} (hle : pos+sc.patlen ≤ sc.size)
    (hi : TextRun (lineAt sc.fb pos) (column sc.fb pos + sc.patlen)
      (restLimit 1024 (column sc.fb pos) sc.patlen) i) :
    ¬ Stops sc pos ↔ sc.size-(pos+sc.patlen) ≤ i ∧
      sc.size-(pos+sc.patlen) < restLimit 1024 (column sc.fb pos) sc.patlen ∧
      sc.size-(pos+sc.patlen) < 2^31 := by
  have hadd := lineStart_add_column sc.fb pos
  have hfile : sc.size < 2^63 := sc.file.small
  have hlimit : ∀ d, d ≤ sc.size → (d < scanLimit (column sc.fb pos) sc.patlen ↔
      d < restLimit 1024 (column sc.fb pos) sc.patlen ∧ d < 2^31) := by
    intro d hd
    unfold scanLimit
    split
    · rename_i hcol
      rw [restLimit_eq hcol (by decide)]
      omega
    · have hwrap : 2^63 ≤ restLimit 1024 (column sc.fb pos) sc.patlen :=
        restLimit_wrap (by omega) (by omega)
      omega
  have hat : ∀ j, lineAt sc.fb pos (column sc.fb pos + sc.patlen + j) =
      sc.fb (pos+sc.patlen+j) := by
    intro j
    simp only [lineAt]
    rw [← Nat.add_assoc,← Nat.add_assoc,hadd]
  unfold Stops
  rw [not_or,Nat.not_le,hlimit _ (by omega)]
  constructor
  · rintro ⟨hno,hlt,hsmall⟩
    refine ⟨?_,hlt,hsmall⟩
    by_contra hgt
    refine hno ⟨pos+sc.patlen+i,by omega,by omega,?_⟩
    rw [← hat]
    exact hi.stop (by omega)
  · rintro ⟨hge,hlt,hsmall⟩
    refine ⟨?_,hlt,hsmall⟩
    rintro ⟨x,hx,hxs,hstop⟩
    have htext := hi.text (x-(pos+sc.patlen)) (by omega)
    rw [hat,Nat.add_sub_cancel' hx,hstop] at htext
    cases htext

theorem mem_load_record {b : Buffer} {pos : Nat} (hcap : 0 < b.cap)
    (hle : pos+sc.patlen ≤ sc.size) :
    (∀ y, .load .content y ∈ (writelineColorBuffer b (lineAt sc.fb pos) 1024
      (column sc.fb pos) sc.patlen).log → lineStart sc.fb pos + y ≤ sc.size) ∧
    ((∃ y, sc.size = lineStart sc.fb pos + y ∧ .load .content y ∈ (writelineColorBuffer b
      (lineAt sc.fb pos) 1024 (column sc.fb pos) sc.patlen).log) ↔ ¬ Stops sc pos) := by
  obtain ⟨i,hi⟩ := exists_textRun (lineAt sc.fb pos) (column sc.fb pos + sc.patlen)
    (restLimit 1024 (column sc.fb pos) sc.patlen)
  have hadd := lineStart_add_column sc.fb pos
  have hend : i ≤ sc.size-(pos+sc.patlen) := by
    refine hi.le_of_stop ?_
    rw [lineAt,sc.fb_of_le (by omega)]
    rfl
  constructor
  · intro y hy
    rcases (mem_load_writelineColorBuffer hcap hi).mp hy with hy | ⟨j,hj,-,-,rfl⟩
    · omega
    · omega
  · rw [stops_iff hle hi]
    constructor
    · rintro ⟨y,hy,hmem⟩
      rcases (mem_load_writelineColorBuffer hcap hi).mp hmem with hlt | ⟨j,hj,hl,hsmall,rfl⟩
      · have := sc.patPos
        omega
      · obtain rfl : j = sc.size-(pos+sc.patlen) := by omega
        exact ⟨hj,hl,hsmall⟩
    · rintro ⟨hge,hlt,hsmall⟩
      exact ⟨column sc.fb pos + sc.patlen + (sc.size-(pos+sc.patlen)),by omega,
        (mem_load_writelineColorBuffer hcap hi).mpr (.inr ⟨_,hge,hlt,hsmall,rfl⟩)⟩

theorem mem_step_log {s : ScanLoop} {e : Event} (he : e ∈ (sc.step s).log) :
    e ∈ (scanMatch sc.kmp sc.fb sc.size s).log ∨ ∃ r, sc.Hit s r ∧
      e ∈ (workerWritebuffer sc.opt s.statics s.buffer sc.fb (Scan.matchAt s r) r.linum
        s.lastlinum).log := by
  rcases Run.mem_log_bind.mp he with he | ⟨r,hr,he⟩
  · exact .inl he
  by_cases hf : r.found = true
  · rw [if_pos hf] at he
    rcases Run.mem_log_bind.mp he with he | ⟨_,-,he⟩
    · rcases Run.mem_log_bind.mp he with he | ⟨_,-,he⟩
      · exact .inr ⟨r,⟨hr,hf⟩,he⟩
      · simp at he
    · simp at he
  · rw [if_neg hf] at he
    simp at he

theorem report_mem_step {s : ScanLoop} {r : KmpRet} (hit : sc.Hit s r) {e : Event}
    (he : e ∈ (workerWritebuffer sc.opt s.statics s.buffer sc.fb (Scan.matchAt s r) r.linum
      s.lastlinum).log) : e ∈ (sc.step s).log := by
  refine Run.mem_log_bind.mpr (.inr ⟨r,hit.val,?_⟩)
  rw [if_pos hit.found]
  exact Run.mem_log_bind.mpr (.inl (Run.mem_log_bind.mpr (.inl he)))

theorem record_mem_step {s : ScanLoop} {r : KmpRet} (hit : sc.Hit s r)
    (hne : r.linum ≠ s.lastlinum) : .record (Scan.matchAt s r) r.linum ∈ (sc.step s).log := by
  obtain ⟨l,-,hlog⟩ := workerWritebuffer_log sc.opt s.statics s.buffer sc.fb
    (Scan.matchAt s r) r.linum s.lastlinum
  refine report_mem_step hit ?_
  rw [hlog,if_pos hne]
  simp

theorem load_scanMatch {s : ScanLoop} (hs : s.startpos ≤ sc.size) {x : Nat}
    (he : .load .file x ∈ (scanMatch sc.kmp sc.fb sc.size s).log) : x < sc.size := by
  simp only [scanMatch,Run.log_relabel,List.mem_map] at he
  obtain ⟨e,he,heq⟩ := he
  have hin := kmpMatch_only sc.prepared _ _ _ e he
  rw [Scan.subSize_startpos hs] at hin
  cases e with
  | load r y =>
    cases r <;> simp [Event.rebase,InBounds] at heq hin
    omega
  | store r y => simp only [Event.rebase] at heq; split at heq <;> cases heq
  | record => cases heq
  | amend => cases heq

theorem load_step {s : ScanLoop} (hs : sc.Inv s) {x : Nat}
    (he : .load .file x ∈ (sc.step s).log) : x < sc.size ∨ x = sc.size ∧
      ∃ pos linum, .record pos linum ∈ (sc.step s).log ∧ ¬ Stops sc pos := by
  rcases mem_step_log he with he | ⟨r,hit,he⟩
  · exact .inl (load_scanMatch hs.startpos he)
  have hle := hit.matchAt_le hs.startpos
  obtain ⟨b₁,hv,ha⟩ := writefBuffer_spec linumFormat r.linum hs.cap
  obtain ⟨hin,hend⟩ := mem_load_record (ha.cap_pos hs.cap) hle
  rcases (mem_load_workerWritebuffer hv).mp he with he | ⟨hne,y,rfl,hy⟩
  · obtain ⟨i,hi,heq⟩ := beginOfLine_log he
    cases heq
    have := sc.patPos
    exact .inl (by omega)
  · rcases Nat.lt_or_eq_of_le (hin y hy) with hlt | heq
    · exact .inl hlt
    · exact .inr ⟨heq,Scan.matchAt s r,r.linum,record_mem_step hit hne,
        hend.mp ⟨y,heq.symm,hy⟩⟩

theorem load_of_record {s : ScanLoop} (hs : sc.Inv s) {pos linum : Nat}
    (he : .record pos linum ∈ (sc.step s).log) (hstop : ¬ Stops sc pos) :
    .load .file sc.size ∈ (sc.step s).log := by
  rcases mem_step_log he with he | ⟨r,hit,he⟩
  · exact (Scan.within_scanMatch sc s _ he).elim
  have hle := hit.matchAt_le hs.startpos
  obtain ⟨b₁,hv,ha⟩ := writefBuffer_spec linumFormat r.linum hs.cap
  obtain ⟨l,hl,hlog⟩ := workerWritebuffer_log sc.opt s.statics s.buffer sc.fb
    (Scan.matchAt s r) r.linum s.lastlinum
  rw [hlog,List.mem_append,List.mem_cons] at he
  rcases he with he | he | he
  · exact (within_beginOfLine _ he).elim
  · split at he
    · rename_i hne
      cases he
      exact report_mem_step hit ((mem_load_workerWritebuffer hv).mpr
        (.inr ⟨hne,(mem_load_record (ha.cap_pos hs.cap) hle).2.mpr hstop⟩))
    · cases he
  · exact (hl _ he).elim

theorem step_reads_mapped_iff {s : ScanLoop} {r : KmpRet} (hs : sc.SmallInv s)
    (hsmall : sc.size < 2^31) (hit : sc.Hit s r) :
    (∀ x, .load .file x ∈ (sc.step s).log → x < mapEnd sc.size) ↔
      sc.size%4096 ≠ 0 ∨ Stops sc (Scan.matchAt s r) := by
  constructor
  · intro h
    by_contra hno
    obtain ⟨hpage,hstop⟩ := not_or.mp hno
    have hne : r.linum ≠ s.lastlinum := by
      have hpos := (hit.linum hs hsmall).1
      rw [hs.lastlinum]
      omega
    have hload := load_of_record hs.toInv (record_mem_step hit hne) hstop
    exact hpage ((size_lt_mapEnd _).mp (h _ hload))
  · intro h x hx
    rcases load_step hs.toInv hx with hlt | ⟨rfl,pos,linum,hrec,hstop⟩
    · exact lt_mapEnd hlt
    have hmem : (pos,linum) ∈ reports (sc.step s).log := List.mem_filterMap.mpr ⟨_,hrec,rfl⟩
    rw [Scan.step_reports hit,List.mem_singleton,Prod.mk.injEq] at hmem
    rw [hmem.1] at hstop
    exact (size_lt_mapEnd _).mpr (h.resolve_right hstop)

/-- The worker reads behind the mapping exactly when the file fills its last page and
some record finds nothing to stop at: neither a newline nor a NUL from its match to
the end of the file, nor the limit of its copy loop. -/
theorem reads_mapped_iff (sc : Scan) (st : Statics) (b : Buffer) (hcap : 0 < b.cap)
    (fuel : Nat) :
    (∀ x, .load .file x ∈ (sc.run fuel (scanInit st b)).log → x < mapEnd sc.size) ↔
      sc.size%4096 ≠ 0 ∨
        ∀ pos linum, .record pos linum ∈ (sc.run fuel (scanInit st b)).log → Stops sc pos := by
  have hinv : ∀ s, Run.Reaches sc.step (scanInit st b) s → sc.Inv s :=
    fun s hs => hs.invariant Scan.inv_step (Scan.inv_init st hcap)
  constructor
  · intro h
    by_contra hno
    simp only [not_or,not_forall] at hno
    obtain ⟨hpage,pos,linum,hrec,hstop⟩ := hno
    obtain ⟨s,hs,he,hsub⟩ := Run.loop_round hrec
    have := h _ (hsub (load_of_record (hinv s hs) he hstop))
    exact hpage ((size_lt_mapEnd _).mp this)
  · intro h x hx
    obtain ⟨s,hs,he,hsub⟩ := Run.loop_round hx
    rcases load_step (hinv s hs) he with hlt | ⟨rfl,pos,linum,hrec,hstop⟩
    · exact lt_mapEnd hlt
    · rcases h with hpage | h
      · exact (size_lt_mapEnd _).mpr hpage
      · exact (hstop (h pos linum (hsub hrec))).elim

theorem reads_mapped_xay : mapEnd scanXay.size = 4096 ∧ ∀ x,
    .load .file x ∈ (scanXay.run 8 (scanInit ⟨0,0⟩ freshBuffer)).log → x < 4096 :=
  ⟨by decide,
    (reads_mapped_iff scanXay ⟨0,0⟩ freshBuffer (by decide) 8).mpr (.inl (by decide))⟩

/-- 4095 newlines and a "b" fill a page; the record of the "b" looks at the byte
behind it. -/
theorem read_behind_page : ¬ ∀ x, .load .file x ∈
    ((scanLast 10 4095 (by decide)).run 4097 (scanInit ⟨0,0⟩ freshBuffer)).log →
      x < mapEnd (scanLast 10 4095 (by decide)).size := by
  have hsize : (scanLast 10 4095 (by decide)).size = 4096 := scanLast_size
  have hfb := scanLast_fb (x := 10) (n := 4095) (h := by decide)
  obtain ⟨r,hit,hpos⟩ := scanLast_hit (n := 4095) (h := by decide) (x := 10) (by decide)
    ⟨0,0⟩ freshBuffer
  have hinit : (scanLast 10 4095 (by decide)).SmallInv (scanInit ⟨0,0⟩ freshBuffer) :=
    Scan.smallInv_init ⟨0,0⟩ (by decide)
  have hbol : lineStart (scanLast 10 4095 (by decide)).fb 4095 = 4095 :=
    (lineStart_isBol _ _).eq ⟨Nat.le_refl _,.inr (by rw [hfb]; rfl),fun i _ _ => by omega⟩
  have hstop : ¬ Stops (scanLast 10 4095 (by decide)) 4095 := by
    rintro (⟨i,hi,hlt,-⟩ | hlimit)
    · rw [hsize] at hlt
      change 4095+1 ≤ i at hi
      omega
    · rw [column,hbol,hsize] at hlimit
      exact absurd hlimit (by decide)
  have hload : .load .file 4096 ∈
      ((scanLast 10 4095 (by decide)).step (scanInit ⟨0,0⟩ freshBuffer)).log := by
    have hlinum := (hit.linum hinit (by rw [hsize]; decide)).1
    have hrec := record_mem_step hit (Nat.ne_of_gt hlinum)
    rw [hpos] at hrec
    rw [← hsize]
    exact load_of_record hinit.toInv hrec hstop
  intro h
  have := h 4096 (by
    rw [Scan.run_eq,Run.loop_succ]
    exact Run.mem_log_bind.mpr (.inl hload))
  rw [hsize] at this
  exact absurd this (by decide)

end SSearcher
