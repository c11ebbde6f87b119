import SSearcher.Behind
set_option autoImplicit false

namespace SSearcher
open Runs Memory Matching

theorem GrownTo.trans {cap need need' cap' cap'' : Nat} (h : GrownTo cap need cap')
    (h' : GrownTo cap' need' cap'') (hle : need ≤ need') : GrownTo cap need' cap'' := by
  obtain ⟨-,j,rfl,hj⟩ := h
  obtain ⟨hroom,k,rfl,hk⟩ := h'
  refine ⟨hroom,j+k,by rw [Nat.pow_add,Nat.mul_assoc],fun i hi => ?_⟩
  rcases Nat.lt_or_ge i j with hij | hij
  · exact Nat.lt_of_lt_of_le (hj i hij) hle
  · have hlt := hk (i-j) (by omega)
    rwa [Nat.mul_assoc,← Nat.pow_add,Nat.add_sub_cancel' hij] at hlt

theorem GrownTo.room_iff {cap need need' cap' x : Nat} (h : GrownTo cap need cap')
    (hpos : 0 < cap') (hle : need ≤ need') :
    (∀ k, need' ≤ cap'*2^k → x ≤ cap'*2^k) ↔ ∀ k, need' ≤ cap*2^k → x ≤ cap*2^k := by
  obtain ⟨c,-,hc⟩ := growLoop_spec need' hpos
  rw [← hc.fits_iff,← (h.trans hc hle).fits_iff]

def Copies (R : List Region) : Event → Prop
  | .load r _ => r ∈ R
  | .store r _ => r = .buf
  | _ => False

theorem copies_memcpy {R : List Region} {rs : Region} {dst src : Ptr} {d s n : Nat}
    (hs : rs ∈ R) : Run.Only (Copies R) (memcpy .buf rs dst d src s n) := by
  intro e he
  simp only [log_memcpy,List.mem_append,List.mem_map] at he
  rcases he with ⟨_,_,rfl⟩ | ⟨_,_,rfl⟩
  · exact hs
  · rfl

theorem copies_checkGrow {R : List Region} {b : Buffer} {room : Nat} (hcap : 0 < b.cap) :
    Run.Only (Copies R) (checkGrow b room) := by
  obtain ⟨_,-,-,hlog⟩ := checkGrow_spec room hcap
  intro e he
  obtain ⟨_,rfl,-⟩ := hlog e he
  rfl

theorem copies_writelineColorBuffer {b : Buffer} {content : Ptr} {len off1 colorlen : Nat}
    (hcap : 0 < b.cap) :
    Run.Only (Copies [.lit,.content]) (writelineColorBuffer b content len off1 colorlen) := by
  refine .bind (copies_checkGrow hcap) fun _ _ => ?_
  refine .bind (copies_memcpy (by decide)) fun _ _ => ?_
  refine .bind (copies_memcpy (by decide)) fun _ _ => ?_
  refine .bind (copies_memcpy (by decide)) fun _ _ => ?_
  refine .bind (copies_memcpy (by decide)) fun _ _ => ?_
  refine .bind (fun e he => ?_) fun _ _ =>
    .bind (copies_memcpy (by decide)) fun _ _ => .pure _ _
  obtain ⟨i,hi⟩ := exists_textRun content (off1+colorlen) (restLimit len off1 colorlen)
  obtain ⟨_,-,-,-,rfl⟩ := (mem_restLoop_log hi).mp he
  simp [Copies]

theorem mem_writefBuffer {b b₁ : Buffer} {format : Nat → List UInt8} {arg n : Nat}
    (hcap : 0 < b.cap) (hv : (writefBuffer b format arg).val = some (n,b₁)) {e : Event}
    (he : e ∈ (writefBuffer b format arg).log) :
    (∃ i, e = .load .lit i) ∨ ∃ x, e = .store .buf x ∧ x < b₁.cap := by
  obtain ⟨b₂,hg,hgrown,hlog⟩ := checkGrow_spec (format arg).length hcap
  have hb₁ : b₁.cap = b₂.cap := by
    simp only [writefBuffer,writeBuffer,Run.val_bind,Run.val_relabel,hg,Option.bind_some,
      val_memcpy,Run.val_pure,Option.some.injEq,Prod.mk.injEq] at hv
    rw [← hv.2]
  have hroom := hgrown.cap.room
  have hoff := hgrown.off
  simp only [writefBuffer,writeBuffer,Run.log_bind_pure,Run.log_relabel,List.mem_map,
    Run.mem_log_bind,hg,Option.some.injEq,exists_eq_left',log_memcpy,List.mem_append,
    List.mem_range] at he
  rw [hb₁]
  rcases he with ⟨e,he | ⟨i,hi,rfl⟩ | ⟨i,hi,rfl⟩,rfl⟩
  · obtain ⟨x,rfl,hx⟩ := hlog e he
    exact .inr ⟨x,rfl,hx⟩
  · exact .inl ⟨_,rfl⟩
  · exact .inr ⟨_,rfl,by omega⟩

namespace Scan

/-- The accesses of a round that stay in the pattern, in its table, in the pages of the
mapping and in a result buffer of `cap` bytes. -/
def inBlocks (sc : Scan) (cap : Nat) : Event → Bool
  | .load .pat i | .load .table i | .store .table i => i < sc.patlen
  | .load .file i => i < mapEnd sc.size
  | .load .buf i | .store .buf i => i < cap
  | .load .lit _ | .record _ _ | .amend _ _ => true
  | _ => false

/-- The round of the match loop, stuck when it has left its blocks: the rest of the loop is
undefined then. -/
def checked (sc : Scan) (s : ScanLoop) : Prog (ScanLoop ⊕ ScanLoop) :=
  (sc.step s).guarded fun x => sc.inBlocks (x.elim (·.buffer.cap) (·.buffer.cap))

def checkedRun (sc : Scan) (fuel : Nat) (s : ScanLoop) : Prog ScanLoop :=
  Run.loop sc.checked fuel s

variable {sc : Scan} {s : ScanLoop} {r : KmpRet}

theorem restricts_checked : Run.Restricts sc.checked sc.step := Run.restricts_guarded _

theorem inBlocks_scanMatch (hs : s.startpos ≤ sc.size) {cap : Nat} {e : Event}
    (he : e ∈ (scanMatch sc.kmp sc.fb sc.size s).log) : sc.inBlocks cap e = true := by
  simp only [scanMatch,Run.log_relabel,List.mem_map] at he
  obtain ⟨e,he,rfl⟩ := he
  have hin := kmpMatch_only sc.prepared _ _ _ e he
  rw [subSize_startpos hs] at hin
  unfold InBounds at hin
  split at hin
  · exact decide_eq_true hin
  · exact decide_eq_true hin
  · exact decide_eq_true hin
  · exact decide_eq_true (lt_mapEnd (by omega))
  · exact hin.elim

/-- The capacity that is doubled until it holds the header of the report and 1047 bytes
holds the record with all text up to the next newline or NUL of the file. -/
def Room (sc : Scan) (s : ScanLoop) (r : KmpRet) : Prop :=
  column sc.fb (matchAt s r) + sc.patlen ≤ 1024 ∨
    ∀ k, s.buffer.off + (linumFormat r.linum).length + 1047 ≤ s.buffer.cap*2^k →
      s.buffer.off + (linumFormat r.linum).length + column sc.fb (matchAt s r) + sc.patlen + 23 +
        ((sc.file.bytes.drop (matchAt s r + sc.patlen)).takeWhile isText).length ≤
          s.buffer.cap*2^k

/-- The record of `r` ends inside its block, and what it reads inside the mapping. -/
structure Contained (sc : Scan) (s : ScanLoop) (r : KmpRet) : Prop where
  room : sc.Room s r
  mapped : sc.size%4096 ≠ 0 ∨ Stops sc (matchAt s r)

theorem Hit.length_rest (hit : sc.Hit s r) (hs : s.startpos ≤ sc.size)
    (hcol : ¬ column sc.fb (matchAt s r) + sc.patlen ≤ 1024) :
    (lineRest (lineAt sc.fb (matchAt s r)) (column sc.fb (matchAt s r) + sc.patlen)
      (restLimit 1024 (column sc.fb (matchAt s r)) sc.patlen)).length =
        ((sc.file.bytes.drop (matchAt s r + sc.patlen)).takeWhile isText).length := by
  have hle := hit.matchAt_le hs
  have hfile : sc.size < 2^63 := sc.file.small
  have hadd := lineStart_add_column sc.fb (matchAt s r)
  have hwrap : 2^63 ≤ restLimit 1024 (column sc.fb (matchAt s r)) sc.patlen :=
    restLimit_wrap (by omega) (by omega)
  rw [lineRest_lineAt,lineRest_file hle (by omega)]

theorem Hit.fitsCap_iff (hit : sc.Hit s r) (hs : sc.SmallInv s) (hsmall : sc.size < 2^31)
    {b₁ : Buffer} (ha : Appended s.buffer (linumFormat r.linum).length (linumFormat r.linum) b₁) :
    FitsCap b₁ (lineAt sc.fb (matchAt s r)) 1024 (column sc.fb (matchAt s r)) sc.patlen ↔
      sc.Room s r := by
  obtain ⟨i,ht⟩ := exists_textRun (lineAt sc.fb (matchAt s r))
    (column sc.fb (matchAt s r) + sc.patlen)
    (restLimit 1024 (column sc.fb (matchAt s r)) sc.patlen)
  have hrest := length_lineRest_le (hit.matchAt_le hs.startpos)
    (restLimit 1024 (column sc.fb (matchAt s r)) sc.patlen)
  rw [ht.length_eq] at hrest
  rw [SSearcher.fitsCap_iff (ha.cap_pos hs.cap) ht,and_iff_right (by omega),Room,ha.off]
  by_cases hcol : column sc.fb (matchAt s r) + sc.patlen ≤ 1024
  · have hlimit := ht.le
    rw [restLimit_eq hcol (by decide)] at hlimit
    refine iff_of_true (fun k hk => ?_) (.inl hcol)
    omega
  · rw [or_iff_right hcol,← hit.length_rest hs.startpos hcol,ht.length_eq]
    exact ha.cap.room_iff (ha.cap_pos hs.cap) (by omega)

theorem Hit.inBlocks_iff (hit : sc.Hit s r) (hs : sc.SmallInv s) (hsmall : sc.size < 2^31)
    {n cap : Nat} {b₁ : Buffer}
    (hv : (writefBuffer s.buffer linumFormat r.linum).val = some (n,b₁)) (hle : b₁.cap ≤ cap) :
    (∀ e, e ∈ (sc.step s).log → sc.inBlocks cap e = true) ↔
      (∀ x, .store .buf x ∈ (writelineColorBuffer b₁ (lineAt sc.fb (matchAt s r)) 1024
        (column sc.fb (matchAt s r)) sc.patlen).log → x < cap) ∧
      ∀ x, .load .file x ∈ (sc.step s).log → x < mapEnd sc.size := by
  have hlinum := hit.linum hs hsmall
  have hne : r.linum ≠ s.lastlinum := by rw [hs.lastlinum]; omega
  have hpos := hit.matchAt_le hs.startpos
  obtain ⟨b₂,hv₂,ha⟩ := writefBuffer_spec linumFormat r.linum hs.cap
  obtain rfl : b₂ = b₁ := by
    rw [hv₂,Option.some.injEq,Prod.mk.injEq] at hv
    exact hv.2
  constructor
  · intro h
    refine ⟨fun x hx => ?_,fun x hx => of_decide_eq_true (h _ hx)⟩
    refine of_decide_eq_true (h (.store .buf x) (report_mem_step hit ?_))
    exact (mem_workerWritebuffer hne hv).mpr (.inr (.inr (.inr (List.mem_map.mpr ⟨_,hx,rfl⟩))))
  · rintro ⟨hstore,hload⟩ e he
    rcases mem_step_log he with hm | ⟨r',hit',hm⟩
    · exact inBlocks_scanMatch hs.startpos hm
    obtain rfl : r' = r := Option.some.inj (hit'.val.symm.trans hit.val)
    rcases (mem_workerWritebuffer hne hv).mp hm with hm | rfl | hm | hm
    · obtain ⟨i,hi,rfl⟩ := beginOfLine_log hm
      exact decide_eq_true (lt_mapEnd (by omega))
    · rfl
    · rcases mem_writefBuffer hs.cap hv hm with ⟨i,rfl⟩ | ⟨x,rfl,hx⟩
      · rfl
      · exact decide_eq_true (Nat.lt_of_lt_of_le hx hle)
    · obtain ⟨e,hcall,rfl⟩ := List.mem_map.mp hm
      have hcopy := copies_writelineColorBuffer (ha.cap_pos hs.cap) e hcall
      cases e with
      | load ρ i =>
        simp only [Copies,List.mem_cons,List.not_mem_nil,or_false] at hcopy
        rcases hcopy with rfl | rfl
        · rfl
        · exact decide_eq_true (hload _ he)
      | store ρ i =>
        obtain rfl : ρ = .buf := hcopy
        exact decide_eq_true (hstore i hcall)
      | record => exact hcopy.elim
      | amend => exact hcopy.elim

theorem checked_of_quiet (hs : s.startpos ≤ sc.size) (hsmall : sc.size < 2^31)
    (h : ∀ r, ¬ sc.Hit s r) : ∃ x, (sc.checked s).val = some x := by
  obtain ⟨r,hr⟩ : ∃ r, (scanMatch sc.kmp sc.fb sc.size s).val = some r := by
    rw [scanMatch,Run.val_relabel,subSize_startpos hs]
    exact kmpMatch_total sc.prepared _ (by omega) _
  have hf : r.found = false := by
    by_contra hf
    exact h r ⟨hr,by simpa using hf⟩
  refine ⟨.inr { s with linum := r.linum },Run.guarded_eq_some.mpr ⟨?_,fun e he => ?_⟩⟩
  · simp [step,matchStep,hr,hf]
  · rcases mem_step_log he with he | ⟨r,hit,-⟩
    · exact inBlocks_scanMatch hs he
    · exact (h r hit).elim

theorem Hit.checked_iff (hit : sc.Hit s r) (hs : sc.SmallInv s) (hsmall : sc.size < 2^31) :
    (∃ x, (sc.checked s).val = some x) ↔ sc.Contained s r := by
  obtain ⟨b₁,hv,ha⟩ := writefBuffer_spec linumFormat r.linum hs.cap
  obtain ⟨nll,_,b',hw,-⟩ := hit.appends hs hsmall
  have hlinum := hit.linum hs hsmall
  have hne : r.linum ≠ s.lastlinum := by rw [hs.lastlinum]; omega
  have hstep := step_of_hit hit
  rw [hw,Option.map_some] at hstep
  rw [workerWritebuffer_record hne hv,Option.map_eq_some_iff] at hw
  obtain ⟨⟨m,b₂⟩,hw,he⟩ := hw
  obtain rfl : b₂ = b' := (Prod.mk.inj he).2
  have hgrow := writelineColorBuffer_cap_le (ha.cap_pos hs.cap) hw
  have hroom := (fitsCap_of_val hw).symm.trans (hit.fitsCap_iff hs hsmall ha)
  have hall := hit.inBlocks_iff hs hsmall hv hgrow
  rw [step_reads_mapped_iff hs hsmall hit] at hall
  have hall := hall.trans (and_congr_left' hroom)
  constructor
  · rintro ⟨x,hx⟩
    obtain ⟨hval,hok⟩ := Run.guarded_eq_some.mp hx
    rw [hstep,Option.some.injEq] at hval
    rw [← hval] at hok
    obtain ⟨hroom,hmapped⟩ := hall.mp hok
    exact ⟨hroom,hmapped⟩
  · rintro ⟨hroom,hmapped⟩
    exact ⟨_,Run.guarded_eq_some.mpr ⟨hstep,hall.mpr ⟨hroom,hmapped⟩⟩⟩

theorem checked_iff (hs : sc.SmallInv s) (hsmall : sc.size < 2^31) :
    (∃ x, (sc.checked s).val = some x) ↔ ∀ r, sc.Hit s r → sc.Contained s r := by
  by_cases hhit : ∃ r, sc.Hit s r
  · obtain ⟨r,hit⟩ := hhit
    rw [hit.checked_iff hs hsmall]
    constructor
    · intro h r' hit'
      obtain rfl : r' = r := Option.some.inj (hit'.val.symm.trans hit.val)
      exact h
    · exact fun h => h r hit
  · exact iff_of_true (checked_of_quiet hs.startpos hsmall fun r hit => hhit ⟨r,hit⟩)
      fun r hit => (hhit ⟨r,hit⟩).elim

theorem checked_descends (hsmall : sc.size < 2^31) (s s' : ScanLoop) (hs : sc.SmallInv s)
    (hv : (sc.checked s).val = some (.inl s')) :
    sc.SmallInv s' ∧ sc.size-s'.startpos < sc.size-s.startpos := by
  obtain ⟨x,hx,hnext⟩ := step_total hs hsmall
  rw [(restricts_checked s).2 _ hv,Option.some.injEq] at hx
  exact hnext s' hx.symm

theorem smallInv_checked {st : Statics} {b : Buffer} (hsmall : sc.size < 2^31) (hcap : 0 < b.cap)
    (hs : Run.Reaches sc.checked (scanInit st b) s) : sc.SmallInv s :=
  (restricts_checked.reaches hs).invariant (smallInv_step hsmall) (smallInv_init st hcap)

theorem checkedRun_ends_iff (sc : Scan) (st : Statics) {b : Buffer} (hsmall : sc.size < 2^31)
    (hcap : 0 < b.cap) :
    (∃ s, (sc.checkedRun (sc.size+1) (scanInit st b)).val = some s) ↔
      ∀ s, Run.Reaches sc.checked (scanInit st b) s → ∀ r, sc.Hit s r → sc.Contained s r := by
  rw [checkedRun,Run.loop_total_iff (checked_descends hsmall) (smallInv_init st hcap)
    (Nat.lt_succ_of_le (Nat.sub_le _ _))]
  exact forall₂_congr fun s hs => checked_iff (smallInv_checked hsmall hcap hs) hsmall

theorem checkedRun_eq {st : Statics} {b : Buffer} (hsmall : sc.size < 2^31) (hcap : 0 < b.cap)
    (h : ∀ s, Run.Reaches sc.checked (scanInit st b) s → ∀ r, sc.Hit s r → sc.Contained s r)
    (fuel : Nat) : sc.checkedRun fuel (scanInit st b) = sc.run fuel (scanInit st b) :=
  restricts_checked.loop_eq
    (fun s hs => (checked_iff (smallInv_checked hsmall hcap hs) hsmall).mpr (h s hs)) fuel

theorem reaches_checked {st : Statics} {b : Buffer} (hsmall : sc.size < 2^31) (hcap : 0 < b.cap)
    (h : ∀ s, Run.Reaches sc.checked (scanInit st b) s → ∀ r, sc.Hit s r → sc.Contained s r) :
    Run.Reaches sc.checked (scanInit st b) s ↔ Run.Reaches sc.step (scanInit st b) s :=
  restricts_checked.reaches_iff fun s hs =>
    (checked_iff (smallInv_checked hsmall hcap hs) hsmall).mpr (h s hs)

theorem Hit.contained_of_le (hit : sc.Hit s r) (hs : s.startpos ≤ sc.size)
    (hsize : sc.size ≤ 1024) : sc.Contained s r := by
  have hle := hit.matchAt_le hs
  have hcol : column sc.fb (matchAt s r) ≤ matchAt s r := Nat.sub_le _ _
  have hpos : 0 < sc.size := sc.file.pos
  exact ⟨.inl (by omega),.inl (by omega)⟩

end Scan

/-- The match loop over a file below 2^31 bytes never gives the search a negative length;
every reported match is an occurrence inside the file, at least the length of the pattern
behind every match reported before; and the loop ends exactly when every record it writes
ends inside its block and is read inside the mapping. -/
theorem scan_ends_iff (sc : Scan) (st : Statics) (b : Buffer) (hsmall : sc.size < 2^31)
    (hcap : 0 < b.cap) :
    ((∃ fuel s, (sc.checkedRun fuel (scanInit st b)).val = some s) ↔
      ∀ s, Run.Reaches sc.checked (scanInit st b) s → ∀ r, sc.Hit s r →
        sc.Room s r ∧ (sc.size%4096 ≠ 0 ∨ Stops sc (Scan.matchAt s r))) ∧
    (∀ s, Run.Reaches sc.checked (scanInit st b) s →
      s.startpos ≤ sc.size ∧ subSize sc.size s.startpos = sc.size-s.startpos) ∧
    ∀ fuel, (∀ x, x ∈ reports (sc.checkedRun fuel (scanInit st b)).log →
        x.1+sc.patlen ≤ sc.size ∧ Occurs sc.opt.searchPattern sc.fb sc.patlen x.1) ∧
      (reports (sc.checkedRun fuel (scanInit st b)).log).Pairwise
        fun x y => x.1+sc.patlen ≤ y.1 := by
  refine ⟨⟨?_,fun h => ?_⟩,fun s hs => ?_,fun fuel => ?_⟩
  · rintro ⟨fuel,f,hf⟩ s hs r hit
    obtain ⟨hroom,hmapped⟩ := (Scan.checked_iff (Scan.smallInv_checked hsmall hcap hs) hsmall).mp
      (Run.loop_unstuck hf hs) r hit
    exact ⟨hroom,hmapped⟩
  · refine ⟨sc.size+1,(Scan.checkedRun_ends_iff sc st hsmall hcap).mpr fun s hs r hit => ?_⟩
    obtain ⟨hroom,hmapped⟩ := h s hs r hit
    exact ⟨hroom,hmapped⟩
  · have hi := Scan.smallInv_checked hsmall hcap hs
    exact ⟨hi.startpos,Scan.subSize_startpos hi.startpos⟩
  · have hinit : sc.Inv (scanInit st b) := Scan.inv_init st hcap
    have hstep : Run.Restricts sc.checked sc.step := Scan.restricts_checked
    obtain ⟨hmem,hpair⟩ := Scan.reports_spaced (by omega) fuel hinit
    have hsub := (hstep.log_prefix fuel (scanInit st b)).sublist.filterMap Event.report?
    exact ⟨fun x hx => (hmem x (hsub.subset hx)).2,hpair.sublist hsub⟩

theorem scan_ends_aa : (∃ fuel s, (scanAa.checkedRun fuel (scanInit ⟨0,0⟩ freshBuffer)).val =
    some s) := by
  obtain ⟨hends,-,-⟩ := scan_ends_iff scanAa ⟨0,0⟩ freshBuffer (by decide) (by decide)
  refine hends.mpr fun s hs r hit => ?_
  obtain ⟨hroom,hmapped⟩ := hit.contained_of_le
    (Scan.smallInv_checked (by decide) (by decide) hs).startpos (by decide)
  exact ⟨hroom,hmapped⟩

/-- The record of the "b" behind 4096 "a" stops the worker. -/
theorem overflow_stuck : ¬ ∃ fuel s, ((scanLast 97 4096 (by decide)).checkedRun fuel
    (scanInit ⟨0,0⟩ freshBuffer)).val = some s := by
  have hsize := scanLast_size (x := 97) (n := 4096) (h := by decide)
  have hinit : (scanLast 97 4096 (by decide)).SmallInv (scanInit ⟨0,0⟩ freshBuffer) :=
    Scan.smallInv_init ⟨0,0⟩ (by decide)
  obtain ⟨r,hit,hpos⟩ := scanLast_hit (n := 4096) (h := by decide) (x := 97) (by decide)
    ⟨0,0⟩ freshBuffer
  have hlen := hit.length_header hinit (by rw [hsize]; decide)
  rintro ⟨fuel,f,hf⟩
  obtain ⟨hroom,-⟩ := (hit.checked_iff hinit (by rw [hsize]; decide)).mp
    (Run.loop_unstuck hf (.refl _))
  rw [Scan.Room,hpos,column,scanLast_line (by decide)] at hroom
  rcases hroom with hcol | hroom
  · omega
  · have hroom := hroom 0
    simp [scanInit,freshBuffer,defaultSize] at hroom
    omega

end SSearcher
