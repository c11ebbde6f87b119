import Mathlib.Data.List.Dedup
import SSearcher.Scan
set_option autoImplicit false

namespace SSearcher
open Runs Memory Matching

variable {fb : Ptr} {pos len n : Nat}

theorem lineStart_add_column (fb : Ptr) (pos : Nat) : lineStart fb pos + column fb pos = pos := by
  have hle := (lineStart_isBol fb pos).le
  unfold column
  omega

theorem slice_lineAt (fb : Ptr) (pos a n : Nat) :
    slice (lineAt fb pos) a n = slice fb (lineStart fb pos + a) n := by
  refine slice_congr fun i _ => ?_
  simp only [lineAt]
  rw [Nat.add_assoc]

theorem lineRest_lineAt (fb : Ptr) (pos m limit : Nat) :
    lineRest (lineAt fb pos) (column fb pos + m) limit = lineRest fb (pos+m) limit := by
  rw [lineRest,lineRest,slice_lineAt,← Nat.add_assoc,lineStart_add_column]

theorem lineRest_eq_slice (fb : Ptr) (start limit : Nat) :
    lineRest fb start limit = slice fb start (lineRest fb start limit).length := by
  obtain ⟨i,hi⟩ := exists_textRun fb start limit
  rw [hi.length_eq,hi.lineRest_eq]

theorem restLimit_eq {len off1 colorlen : Nat} (h : off1+colorlen ≤ len) (hlen : len < 2^64) :
    restLimit len off1 colorlen = len-off1-colorlen := by
  rw [restLimit,subSize_of_le (b := off1) (by omega) hlen,subSize_of_le (by omega) (by omega)]

def restOfLine (fb : Ptr) (pos m : Nat) : List UInt8 :=
  lineRest fb (pos+m) (1024-column fb pos - m)

theorem recordText_eq {m : Nat} (h : column fb pos + m ≤ 1024) :
    recordText (lineAt fb pos) 1024 (column fb pos) m =
      slice fb (lineStart fb pos) (column fb pos) ++ hiliColor ++ slice fb pos m ++ resetColor ++
        restOfLine fb pos m := by
  rw [recordText,lineRest_lineAt,restLimit_eq h (by decide),slice_lineAt,slice_lineAt,
    lineStart_add_column,Nat.add_zero,restOfLine]

theorem recordText_piece (fb : Ptr) (pos m : Nat) :
    slice fb (lineStart fb pos) (column fb pos) ++ slice fb pos m ++ restOfLine fb pos m =
      slice fb (lineStart fb pos) (column fb pos + m + (restOfLine fb pos m).length) := by
  rw [slice_add,slice_add,← Nat.add_assoc,lineStart_add_column,restOfLine,← lineRest_eq_slice]

/-- A record shows the line of its match: the call appends the header, the line up
to the match, the match between the escapes, and the text behind it, within 1024
bytes of the line. What the buffer held before stays. -/
theorem record_content (sc : Scan) (st : Statics) (b : Buffer) (hsmall : sc.size < 2^30)
    (hcap : 0 < b.cap) {s : ScanLoop} (hs : Run.Reaches sc.step (scanInit st b) s)
    {r : KmpRet} (hit : sc.Hit s r) {pos : Nat} (hpos : Scan.matchAt s r = pos)
    (hcol : column sc.fb pos + sc.patlen ≤ 1024) :
    r.linum ≠ s.lastlinum ∧
    (beginOfLine sc.fb pos).val = some (lineStart sc.fb pos) ∧
    IsBol sc.fb pos (lineStart sc.fb pos) ∧
    slice sc.fb pos sc.patlen = slice sc.opt.searchPattern 0 sc.patlen ∧
    (∃ st' b', (workerWritebuffer sc.opt s.statics s.buffer sc.fb pos r.linum
        s.lastlinum).val = some (st',b') ∧
      b'.contents = s.buffer.contents ++ (linumFormat r.linum ++
        (slice sc.fb (lineStart sc.fb pos) (column sc.fb pos) ++ hiliColor ++
          slice sc.fb pos sc.patlen ++ resetColor ++ restOfLine sc.fb pos sc.patlen))) ∧
    slice sc.fb (lineStart sc.fb pos) (column sc.fb pos) ++ slice sc.fb pos sc.patlen ++
        restOfLine sc.fb pos sc.patlen =
      slice sc.fb (lineStart sc.fb pos)
        (column sc.fb pos + sc.patlen + (restOfLine sc.fb pos sc.patlen).length) := by
  have hi : sc.SmallInv s :=
    hs.invariant (Scan.smallInv_step (by omega)) (Scan.smallInv_init st hcap)
  have hl := hit.linum hi (by omega)
  have hsound := hit.sound hi.startpos
  have he := hit.matchAt_eq hi.startpos (by omega)
  obtain ⟨nll,b₁,b',hw,ha₁,ha'⟩ := hit.appends hi (by omega)
  rw [hpos] at he hw ha'
  refine ⟨by rw [hi.lastlinum]; omega,beginOfLine_val _ _,lineStart_isBol _ _,?_,?_,
    recordText_piece _ _ _⟩
  · exact slice_congr fun i hi => by rw [he,Nat.zero_add]; exact hsound.2.2 i hi
  · refine ⟨_,b',hw,?_⟩
    rw [ha'.contents,ha₁.contents,recordText_eq hcol,List.append_assoc]

def scanXay : Scan := .of [120,97] [121,10,121,120,97,121,10] false (by decide) (by decide)

theorem record_content_xay : ∃ st' b', (workerWritebuffer scanXay.opt ⟨0,0⟩ freshBuffer
    scanXay.fb 3 2 0).val = some (st',b') ∧
    b'.contents = linumFormat 2 ++ ([121] ++ hiliColor ++ [120,97] ++ resetColor ++ [121]) := by
  have hit : scanXay.Hit (scanInit ⟨0,0⟩ freshBuffer) ⟨true,2,3⟩ := ⟨by decide,rfl⟩
  have hpos : Scan.matchAt (scanInit ⟨0,0⟩ freshBuffer) ⟨true,2,3⟩ = 3 := by decide
  obtain ⟨-,-,-,-,⟨st',b',hv,hc⟩,-⟩ := record_content scanXay ⟨0,0⟩ freshBuffer (by decide)
    (by decide) (.refl _) hit hpos (by decide)
  have hline : slice scanXay.fb (lineStart scanXay.fb 3) (column scanXay.fb 3) = [121] := by
    decide
  have hmatch : slice scanXay.fb 3 scanXay.patlen = [120,97] := by decide
  have hrest : restOfLine scanXay.fb 3 scanXay.patlen = [121] := by decide +kernel
  rw [hline,hmatch,hrest] at hc
  exact ⟨st',b',hv,hc⟩

/-- The calls of worker_writebuffer: whether each starts a record, and its position. -/
def Event.start? : Event → Option (Bool × Nat)
  | .record pos _ => some (true,pos)
  | .amend pos _ => some (false,pos)
  | _ => none

def starts (es : List Event) : List (Bool × Nat) := es.filterMap Event.start?

/-- A report starts a record when its line has none yet and amends it otherwise,
so there are as many headers as lines with a match. -/
structure OneRecordPerLine (fb : Ptr) (es : List Event) : Prop where
  first : ∀ l x l', starts es = l ++ x :: l' →
    (x.1 = true ↔ ∀ y, y ∈ l → lineStart fb y.2 ≠ lineStart fb x.2)
  headers : ((starts es).filter fun x => x.1).length =
    ((starts es).map fun x => lineStart fb x.2).dedup.length

theorem starts_eq {es : List Event} (h : ∀ pos linum, .amend pos linum ∉ es) :
    starts es = (reports es).map fun x => (true,x.1) := by
  induction es with
  | nil => rfl
  | cons e es ih =>
    have ih := ih fun pos linum hm => h pos linum (List.mem_cons_of_mem e hm)
    unfold starts reports at ih ⊢
    cases e with
    | amend pos linum => exact absurd List.mem_cons_self (h pos linum)
    | load => exact ih
    | store => exact ih
    | record pos linum => exact congrArg (List.cons (true,pos)) ih

theorem oneRecordPerLine_iff {fb : Ptr} {es : List Event}
    (h : ∀ pos linum, .amend pos linum ∉ es) :
    OneRecordPerLine fb es ↔ ((reports es).map fun x => lineStart fb x.1).Nodup := by
  have hstarts := starts_eq h
  have hall : ∀ x, x ∈ starts es → x.1 = true := by
    rw [hstarts]
    simp
  have hlines : (starts es).map (fun x => lineStart fb x.2) =
      (reports es).map fun x => lineStart fb x.1 := by
    simp [hstarts]
  rw [← hlines]
  constructor
  · intro hone
    refine List.pairwise_map.mpr (List.pairwise_iff_getElem.mpr fun i j hi hj hij => ?_)
    have hsplit : starts es = (starts es).take j ++ (starts es)[j] :: (starts es).drop (j+1) := by
      rw [List.getElem_cons_drop,List.take_append_drop]
    exact (hone.first _ _ _ hsplit).mp (hall _ (List.getElem_mem hj)) _
      (List.mem_take_iff_getElem.mpr ⟨i,by omega,rfl⟩)
  · intro hnodup
    refine ⟨fun l x l' he => ?_,?_⟩
    · refine iff_of_true (hall x (by simp [he])) fun y hy => ?_
      rw [he,List.map_append,List.map_cons] at hnodup
      have := (List.nodup_append.mp hnodup).2.2
      exact this _ (List.mem_map_of_mem hy) _ List.mem_cons_self
    · rw [List.Nodup.dedup hnodup,List.filter_eq_self.mpr hall,List.length_map]

variable {sc : Scan}

/-- A report amends only if its line number is 0: `lastlinum` never changes. -/
theorem amend_linum {st : Statics} {b : Buffer} (hcap : 0 < b.cap) {fuel pos linum : Nat}
    (h : .amend pos linum ∈ (sc.run fuel (scanInit st b)).log) : linum = 0 := by
  obtain ⟨s,hs,he⟩ := Run.loop_log h
  have hi : sc.Inv s := hs.invariant Scan.inv_step (Scan.inv_init st hcap)
  rcases Run.mem_log_bind.mp he with he | ⟨r,hr,he⟩
  · exact (Scan.within_scanMatch sc s _ he).elim
  by_cases hf : r.found = true
  · rw [if_pos hf] at he
    rcases Run.mem_log_bind.mp he with he | ⟨_,-,he⟩
    · rcases Run.mem_log_bind.mp he with he | ⟨_,-,he⟩
      · rw [← hi.lastlinum]
        exact workerWritebuffer_amend he
      · simp at he
    · simp at he
  · rw [if_neg hf] at he
    simp at he

theorem reports_linum_pos {s : ScanLoop} (hs : sc.SmallInv s) (hsmall : sc.size < 2^31)
    (fuel : Nat) : ∀ x, x ∈ reports (sc.run fuel s).log → x.2 ≠ 0 := by
  induction fuel generalizing s with
  | zero => simp [Scan.run_eq,Run.loop,reports]
  | succ fuel ih =>
    rcases Scan.reports_run_cases sc fuel s with ⟨h,-⟩ | ⟨r,hit,⟨h,-⟩ | ⟨s',hv,h⟩⟩
    · simp [h]
    · have hl := hit.linum hs hsmall
      simp [h]
      omega
    · have hl := hit.linum hs hsmall
      rw [h,List.forall_mem_cons]
      exact ⟨by simp only; omega,ih (Scan.smallInv_step hsmall s s' hs hv)⟩

/-- Every report starts a record of its own, so a line gets one record exactly when
it has one reported match. A line number of 0 takes 2^32 newlines. -/
theorem one_record_iff (sc : Scan) (st : Statics) (b : Buffer) (hcap : 0 < b.cap)
    (fuel : Nat) :
    ((∀ x, x ∈ reports (sc.run fuel (scanInit st b)).log → x.2 ≠ 0) →
      (OneRecordPerLine sc.fb (sc.run fuel (scanInit st b)).log ↔
        ((reports (sc.run fuel (scanInit st b)).log).map fun x => lineStart sc.fb x.1).Nodup)) ∧
    (sc.size < 2^31 → (OneRecordPerLine sc.fb (sc.run fuel (scanInit st b)).log ↔
      ((reports (sc.run fuel (scanInit st b)).log).map fun x => lineStart sc.fb x.1).Nodup)) := by
  have hiff : (∀ x, x ∈ reports (sc.run fuel (scanInit st b)).log → x.2 ≠ 0) →
      (OneRecordPerLine sc.fb (sc.run fuel (scanInit st b)).log ↔
        ((reports (sc.run fuel (scanInit st b)).log).map fun x => lineStart sc.fb x.1).Nodup) := by
    intro h
    refine oneRecordPerLine_iff fun pos linum hm => ?_
    exact h (pos,linum) (List.mem_filterMap.mpr ⟨_,hm,rfl⟩) (amend_linum hcap hm)
  refine ⟨hiff,fun hsmall => hiff ?_⟩
  exact reports_linum_pos (Scan.smallInv_init st hcap) hsmall fuel

def scanAab : Scan := .of [97] [98,97,10,97,98,10] false Scan.length_a (by decide)

theorem one_record_iff_aab :
    OneRecordPerLine scanAab.fb (scanAab.run 7 (scanInit ⟨0,0⟩ freshBuffer)).log := by
  have hreports : reports (scanAab.run 7 (scanInit ⟨0,0⟩ freshBuffer)).log = [(1,1),(3,2)] := by
    decide +kernel
  refine ((one_record_iff scanAab ⟨0,0⟩ freshBuffer (by decide) 7).2 (by decide)).mpr ?_
  rw [hreports]
  decide

theorem two_records_aa : starts (scanAa.run 4 (scanInit ⟨0,0⟩ freshBuffer)).log =
      [(true,0),(true,1)] ∧
    ¬ OneRecordPerLine scanAa.fb (scanAa.run 4 (scanInit ⟨0,0⟩ freshBuffer)).log := by
  have hstarts : starts (scanAa.run 4 (scanInit ⟨0,0⟩ freshBuffer)).log =
      [(true,0),(true,1)] := by decide +kernel
  refine ⟨hstarts,fun h => ?_⟩
  exact absurd rfl ((h.first [(true,0)] (true,1) [] hstarts).mp rfl (true,0) List.mem_cons_self)

end SSearcher
