import SSearcher.Buffer
set_option autoImplicit false

namespace SSearcher
open Runs Memory

def Buffer.contents (b : Buffer) : List UInt8 := slice b.buf 0 b.off

def Buffer.TailZero (b : Buffer) : Prop := ∀ i, b.off ≤ i → i < b.cap → b.buf i = 0

@[simp] theorem Buffer.length_contents (b : Buffer) : b.contents.length = b.off := by
  simp [contents]

theorem slice_cap {b : Buffer} (h : b.off ≤ b.cap) :
    slice b.buf 0 b.cap = b.contents ++ slice b.buf b.off (b.cap-b.off) := by
  have hadd := slice_add b.buf 0 b.off (b.cap-b.off)
  rwa [Nat.add_sub_cancel' h,Nat.zero_add] at hadd

theorem takeWhile_noNul {l : List UInt8} (h : 0 ∉ l) (r : List UInt8) :
    (l ++ r).takeWhile (· ≠ 0) = l ++ r.takeWhile (· ≠ 0) := by
  refine List.takeWhile_append_of_pos fun x hx => ?_
  simp only [decide_eq_true_eq]
  rintro rfl
  exact h hx

theorem readBuffer_of_nul {b : Buffer} (hlt : b.off < b.cap) (hnul : b.buf b.off = 0)
    (hno : 0 ∉ b.contents) : readBuffer b = some b.contents := by
  obtain ⟨d,hd⟩ : ∃ d, b.cap-b.off = 1+d := ⟨b.cap-b.off-1,by omega⟩
  have hblock := slice_cap (Nat.le_of_lt hlt)
  have hone : slice b.buf b.off 1 = [0] := by
    rw [← hnul]
    rfl
  rw [hd,slice_add,hone] at hblock
  have hmem : 0 ∈ slice b.buf 0 b.cap := by simp [hblock]
  rw [readBuffer,if_pos hmem,hblock,takeWhile_noNul hno]
  simp

structure Buffer.Empty (b : Buffer) : Prop where
  cap : b.cap = defaultSize
  off : b.off = 0
  tail : b.TailZero

theorem initBuffer_empty {b b' : Buffer} (h : (initBuffer b).val = some b') : b'.Empty := by
  simp only [initBuffer,Run.val_bind,val_memset,Option.bind_some,Run.val_pure,
    Option.some.injEq] at h
  subst h
  refine ⟨rfl,rfl,fun i _ hi => ?_⟩
  have hlen : i < (List.replicate defaultSize (0 : UInt8)).length := by
    rw [List.length_replicate]
    exact hi
  have hput := put_at (m := b.buf) (a := 0) hlen
  rw [Nat.zero_add] at hput
  simp only
  rw [hput,List.getElem_replicate]

theorem Buffer.Empty.cap_pos {b : Buffer} (h : b.Empty) : 0 < b.cap := by
  rw [h.cap]
  decide

theorem Buffer.Empty.contents {b : Buffer} (h : b.Empty) : b.contents = [] := by
  rw [Buffer.contents,h.off,slice_zero]

theorem freshBuffer_init : (initBuffer freshBuffer).val = some freshBuffer := by
  have hput : put freshBuffer.buf 0 (List.replicate defaultSize 0) = freshBuffer.buf := by
    funext i
    by_cases hi : i < (List.replicate defaultSize (0 : UInt8)).length
    · have hat := put_at (m := freshBuffer.buf) (a := 0) hi
      rw [Nat.zero_add] at hat
      rw [hat,List.getElem_replicate]
      rfl
    · exact put_above (by omega)
  simp only [initBuffer,Run.val_bind,val_memset,Option.bind_some,Run.val_pure,hput]
  rfl

/-- `cap'` is the least doubling of `cap` with room for `need`. -/
structure GrownTo (cap need cap' : Nat) : Prop where
  room : need ≤ cap'
  least : ∃ k, cap' = cap*2^k ∧ ∀ i, i < k → cap*2^i < need

theorem GrownTo.fits_iff {cap need cap' x : Nat} (h : GrownTo cap need cap') :
    x ≤ cap' ↔ ∀ k, need ≤ cap*2^k → x ≤ cap*2^k := by
  obtain ⟨hroom,k,rfl,hleast⟩ := h
  constructor
  · intro hx i hi
    have hki : k ≤ i := by
      by_contra hlt
      have := hleast i (by omega)
      omega
    exact Nat.le_trans hx (Nat.mul_le_mul_left cap (Nat.pow_le_pow_right (by decide) hki))
  · intro hx
    exact hx k hroom

theorem GrownTo.cap_le {cap need cap' : Nat} (h : GrownTo cap need cap') : cap ≤ cap' := by
  obtain ⟨-,k,rfl,-⟩ := h
  exact Nat.le_mul_of_pos_right cap (Nat.two_pow_pos k)

theorem GrownTo.eq_of_le {cap need cap' : Nat} (h : GrownTo cap need cap')
    (hle : need ≤ cap) : cap' = cap := by
  obtain ⟨-,k,rfl,hleast⟩ := h
  cases k with
  | zero => simp
  | succ k =>
    have := hleast 0 (Nat.succ_pos k)
    omega

def GrowInv (cap need newcap : Nat) : Prop :=
  ∃ k, newcap = cap*2^k ∧ ∀ i, i < k → cap*2^i < need

theorem growInv_step {cap need : Nat} (c c' : Nat) (h : GrowInv cap need c)
    (hs : (growStep need c).val = some (.inl c')) : GrowInv cap need c' := by
  obtain ⟨k,rfl,hk⟩ := h
  unfold growStep at hs
  split at hs
  · rename_i hlt
    simp only [Run.val_pure,Option.some.injEq,Sum.inl.injEq] at hs
    refine ⟨k+1,by rw [← hs,Nat.pow_succ,← Nat.mul_assoc,Nat.mul_two],fun i hi => ?_⟩
    rcases Nat.lt_succ_iff_lt_or_eq.mp hi with hi | rfl
    · exact hk i hi
    · exact hlt
  · simp at hs

theorem growLoop_log (need n cap : Nat) : (Run.loop (growStep need) n cap).log = [] := by
  rw [List.eq_nil_iff_forall_not_mem]
  intro e he
  obtain ⟨c,-,hc⟩ := Run.loop_log he
  unfold growStep at hc
  split at hc <;> simp at hc

theorem growLoop_spec {cap : Nat} (need : Nat) (hcap : 0 < cap) :
    ∃ c, (Run.loop (growStep need) (need+1) cap).val = some c ∧ GrownTo cap need c := by
  have hinit : GrowInv cap need cap := ⟨0,by simp,by omega⟩
  obtain ⟨c,hc⟩ : ∃ c, (Run.loop (growStep need) (need+1) cap).val = some c := by
    apply Run.loop_total (I := fun c => 0 < c) (μ := fun c => need-c) _ hcap (by omega)
    intro c hpos
    by_cases hlt : c < need
    · refine ⟨.inl (c+c),by simp [growStep,hlt],?_⟩
      rintro c' ⟨⟩
      omega
    · exact ⟨.inr c,by simp [growStep,hlt],by simp⟩
  refine ⟨c,hc,?_⟩
  obtain ⟨c',hr,he⟩ := Run.loop_exit hc
  have hinv := hr.invariant growInv_step hinit
  unfold growStep at he
  split at he
  · simp at he
  · rename_i hge
    simp only [Run.val_pure,Option.some.injEq,Sum.inr.injEq] at he
    exact ⟨by omega,he ▸ hinv⟩

/-- Room for `room` more bytes has been made. -/
structure Grown (b : Buffer) (room : Nat) (b' : Buffer) : Prop where
  off : b'.off = b.off
  cap : GrownTo b.cap (b.off+room) b'.cap
  kept : ∀ i, i < b.off → b'.buf i = b.buf i
  tail : b.TailZero → b'.TailZero

theorem Grown.contents {b b' : Buffer} {room : Nat} (h : Grown b room b') :
    b'.contents = b.contents := by
  rw [Buffer.contents,h.off]
  exact slice_congr fun i hi => by simpa using h.kept i hi

theorem checkGrow_spec {b : Buffer} (room : Nat) (hcap : 0 < b.cap) :
    ∃ b', (checkGrow b room).val = some b' ∧ Grown b room b' ∧
      ∀ e, e ∈ (checkGrow b room).log → ∃ i, e = .store .buf i ∧ i < b'.cap := by
  unfold checkGrow
  split
  · rename_i hgt
    obtain ⟨c,hc,hgrown⟩ := growLoop_spec (room+b.off) hcap
    rw [Nat.add_comm room] at hgrown
    have hroom := hgrown.room
    refine ⟨⟨put b.buf b.off (List.replicate (c-b.off) 0),c,b.off⟩,by simp [bufferGrow,hc],?_,?_⟩
    · refine ⟨rfl,hgrown,fun i hi => put_below _ hi,fun _ i hi hic => ?_⟩
      simp only at hi hic ⊢
      obtain ⟨j,rfl⟩ : ∃ j, i = b.off+j := ⟨i-b.off,by omega⟩
      have hlen : j < (List.replicate (c-b.off) (0 : UInt8)).length := by simp; omega
      simp [put_at hlen]
    · intro e he
      simp [bufferGrow,hc,growLoop_log] at he
      obtain ⟨i,hi,rfl⟩ := he
      exact ⟨_,rfl,by simp; omega⟩
  · rename_i hle
    refine ⟨b,rfl,⟨rfl,⟨by omega,0,by simp,by omega⟩,fun _ _ => rfl,id⟩,by simp⟩

/-- A writer that asked for `room` bytes has put `l` behind the old contents. -/
structure Appended (b : Buffer) (room : Nat) (l : List UInt8) (b' : Buffer) : Prop where
  off : b'.off = b.off+l.length
  cap : GrownTo b.cap (b.off+room) b'.cap
  contents : b'.contents = b.contents ++ l
  tail : b.TailZero → b'.TailZero

theorem Grown.append {b b' : Buffer} {room : Nat} (h : Grown b room b') (l : List UInt8)
    {off : Nat} (hoff : off = b.off+l.length) :
    Appended b room l { b' with buf := put b'.buf b'.off l,off := off } := by
  refine ⟨hoff,h.cap,?_,fun ht i hi hic => ?_⟩
  · rw [← h.contents,Buffer.contents,Buffer.contents]
    exact slice_put_append (by rw [hoff,h.off])
  · have hbo := h.off
    simp only at hi hic ⊢
    rw [put_above (by omega)]
    exact h.tail ht i (by omega) hic

theorem Appended.cap_pos {b b' : Buffer} {room : Nat} {l : List UInt8}
    (h : Appended b room l b') (hcap : 0 < b.cap) : 0 < b'.cap :=
  Nat.lt_of_lt_of_le hcap h.cap.cap_le

theorem slice_ofList (l : List UInt8) {n : Nat} (hn : n = l.length) :
    slice (ofList l) 0 n = l := by
  subst hn
  apply List.ext_getElem
  · simp
  · intro i hi hl
    simp [slice,ofList,hl]

theorem writeBuffer_spec {b : Buffer} (content : Ptr) (len : Nat) (hcap : 0 < b.cap) :
    ∃ b', (writeBuffer b content len).val = some (len,b') ∧
      Appended b len (slice content 0 len) b' := by
  obtain ⟨b₁,hv,hg,-⟩ := checkGrow_spec len hcap
  refine ⟨_,by simp [writeBuffer,hv]; rfl,?_⟩
  exact hg.append _ (by simp [hg.off])

theorem writefBuffer_spec {b : Buffer} (format : Nat → List UInt8) (arg : Nat)
    (hcap : 0 < b.cap) :
    ∃ b', (writefBuffer b format arg).val = some ((format arg).length,b') ∧
      Appended b (format arg).length (format arg) b' := by
  obtain ⟨b',hv,ha⟩ := writeBuffer_spec (ofList (format arg)) (format arg).length hcap
  rw [slice_ofList _ rfl] at ha
  exact ⟨b',by simp [writefBuffer,hv],ha⟩

theorem length_linumFormat_le {linum d : Nat} (hd : 0 < d) (h : linum < 10^d) :
    (linumFormat linum).length ≤ 13+d := by
  have hdigits := (Nat.length_toDigits_le_iff (n := linum) (by decide) hd).mpr h
  simp only [linumFormat,linumColor,decimal,resetColor,List.length_append,List.length_cons,
    List.length_nil,List.length_map]
  omega

/-- A byte the copy loop of writeline_color_buffer goes past. -/
def isText (x : UInt8) : Bool := x != newline && x != 0

def lineRest (content : Ptr) (start limit : Nat) : List UInt8 :=
  (slice content start limit).takeWhile isText

/-- `i` bytes of text follow `start`, and there the run ends or reaches the limit. -/
structure TextRun (content : Ptr) (start limit i : Nat) : Prop where
  le : i ≤ limit
  text : ∀ j, j < i → isText (content (start+j)) = true
  stop : i < limit → isText (content (start+i)) = false

theorem exists_textRun (content : Ptr) (start limit : Nat) :
    ∃ i, TextRun content start limit i := by
  obtain ⟨i,hi,ht,hs⟩ := exists_run isText content start limit
  exact ⟨i,hi,ht,hs⟩

variable {content : Ptr} {start limit i : Nat}

theorem TextRun.lineRest_eq (h : TextRun content start limit i) :
    lineRest content start limit = slice content start i :=
  takeWhile_slice h.le h.text h.stop

theorem TextRun.length_eq (h : TextRun content start limit i) :
    (lineRest content start limit).length = i := by
  rw [h.lineRest_eq,length_slice]

theorem TextRun.le_of_stop (h : TextRun content start limit i) {d : Nat}
    (hd : isText (content (start+d)) = false) : i ≤ d := by
  by_contra hlt
  simp [h.text d (by omega)] at hd

theorem isText_iff {x : UInt8} : isText x = true ↔ x ≠ newline ∧ x ≠ 0 := by simp [isText]

theorem restStep_text (h : TextRun content start limit i) {j : Nat} (hj : j < i) :
    (restStep content start limit j).val = (incInt j).val.map .inl ∧
      (restStep content start limit j).log =
        [.load .content (start+j),.load .content (start+j)] := by
  obtain ⟨hn,hz⟩ := isText_iff.mp (h.text j hj)
  have hle := h.le
  have hlt : j < limit := by omega
  constructor
  · simp [restStep,hlt,hn,hz]
    cases (incInt j).val <;> rfl
  · simp [restStep,hlt,hn,hz,Run.log_bind]
    cases (incInt j).val <;> rfl

theorem restStep_stop (h : TextRun content start limit i) :
    (restStep content start limit i).val = some (.inr i) ∧
      (∀ e, e ∈ (restStep content start limit i).log →
        i < limit ∧ e = .load .content (start+i)) ∧
      (i < limit → .load .content (start+i) ∈ (restStep content start limit i).log) := by
  by_cases hlt : i < limit
  · by_cases hn : content (start+i) = newline
    · simp [restStep,hlt,hn]
    · have hz : content (start+i) = 0 := by
        by_contra hz
        have := h.stop hlt
        simp [isText_iff.mpr ⟨hn,hz⟩] at this
      have hn' : ¬ (0 : UInt8) = newline := by decide
      simp [restStep,hlt,hz,hn']
  · simp [restStep,hlt]

theorem countLoop_val {step : Nat → Prog (Nat ⊕ Nat)}
    (hnext : ∀ j, j < i → (step j).val = (incInt j).val.map .inl)
    (hstop : (step i).val = some (.inr i)) {n : Nat} (hn : i < n) :
    (Run.loop step n 0).val = if i < 2^31 then some i else none := by
  have hreturn : i < 2^31 → ∀ n j, j ≤ i → i-j < n → (Run.loop step n j).val = some i := by
    intro hsmall n
    induction n with
    | zero => omega
    | succ n ih =>
      intro j hj hn
      rcases Nat.eq_or_lt_of_le hj with rfl | hlt
      · rw [Run.loop_of_inr n hstop]
      · have hv := hnext j hlt
        rw [incInt_of_lt (by omega)] at hv
        rw [Run.loop_of_inl n hv]
        exact ih (j+1) hlt (by omega)
  have hoverflow : ¬ i < 2^31 → ∀ n j, j < 2^31 → (Run.loop step n j).val = none := by
    intro hlarge n
    induction n with
    | zero => exact fun _ _ => rfl
    | succ n ih =>
      intro j hj
      have hv := hnext j (by omega)
      by_cases hlt : j+1 < 2^31
      · rw [incInt_of_lt hlt] at hv
        rw [Run.loop_of_inl n hv]
        exact ih (j+1) hlt
      · rw [incInt,if_neg hlt] at hv
        rw [Run.loop_of_none n hv]
  split
  · exact hreturn ‹_› n 0 (Nat.zero_le i) (by omega)
  · exact hoverflow ‹_› n 0 (by decide)

/-- A run of 2^31 bytes and more overflows the int that counts it. -/
theorem restLoop_val (h : TextRun content start limit i) :
    (restLoop content start limit).val = if i < 2^31 then some i else none :=
  countLoop_val (fun _ hj => (restStep_text h hj).1) (restStep_stop h).1
    (Nat.lt_succ_of_le h.le)

theorem restStep_next (h : TextRun content start limit i) (j j' : Nat)
    (hj : j ≤ i ∧ j < 2^31) (hs : (restStep content start limit j).val = some (.inl j')) :
    j' ≤ i ∧ j' < 2^31 := by
  rcases Nat.eq_or_lt_of_le hj.1 with rfl | hlt
  · simp [(restStep_stop h).1] at hs
  · rw [(restStep_text h hlt).1] at hs
    simp only [Option.map_eq_some_iff,incInt_eq_some,Sum.inl.injEq] at hs
    obtain ⟨_,⟨rfl,hsmall⟩,rfl⟩ := hs
    exact ⟨hlt,hsmall⟩

theorem of_mem_restLoop_log (h : TextRun content start limit i) {e : Event}
    (he : e ∈ (restLoop content start limit).log) :
    ∃ j, j ≤ i ∧ j < limit ∧ j < 2^31 ∧ e = .load .content (start+j) := by
  obtain ⟨j,hr,he⟩ := Run.loop_log he
  obtain ⟨hj,hsmall⟩ := hr.invariant (restStep_next h) ⟨Nat.zero_le i,by decide⟩
  have hle := h.le
  rcases Nat.eq_or_lt_of_le hj with rfl | hlt
  · obtain ⟨hl,he⟩ := (restStep_stop h).2.1 e he
    exact ⟨j,hj,hl,hsmall,he⟩
  · rw [(restStep_text h hlt).2] at he
    exact ⟨j,hj,by omega,hsmall,by simpa using he⟩

theorem mem_restLoop_log_of (h : TextRun content start limit i) {n j x : Nat} (hjx : j ≤ x)
    (hx : x ≤ i) (hl : x < limit) (hsmall : x < 2^31) (hn : x-j < n) :
    .load .content (start+x) ∈ (Run.loop (restStep content start limit) n j).log := by
  induction n generalizing j with
  | zero => omega
  | succ n ih =>
    by_cases hji : j < i
    · obtain ⟨hv,hlog⟩ := restStep_text h hji
      rcases Nat.eq_or_lt_of_le hjx with rfl | hlt
      · have hmem : .load .content (start+j) ∈ (restStep content start limit j).log := by
          simp [hlog]
        rw [Run.loop_succ]
        exact Run.mem_log_bind.mpr (.inl hmem)
      · rw [incInt_of_lt (by omega)] at hv
        rw [Run.loop_of_inl n hv]
        exact List.mem_append_right _ (ih hlt (by omega))
    · obtain rfl : j = i := by omega
      obtain rfl : x = j := by omega
      rw [Run.loop_succ]
      exact Run.mem_log_bind.mpr (.inl ((restStep_stop h).2.2 hl))

theorem mem_restLoop_log (h : TextRun content start limit i) {e : Event} :
    e ∈ (restLoop content start limit).log ↔
      ∃ j, j ≤ i ∧ j < limit ∧ j < 2^31 ∧ e = .load .content (start+j) := by
  refine ⟨of_mem_restLoop_log h,?_⟩
  rintro ⟨j,hj,hl,hsmall,rfl⟩
  exact mem_restLoop_log_of h (Nat.zero_le j) hj hl hsmall (by omega)

def restLimit (len off1 colorlen : Nat) : Nat := subSize (subSize len off1) colorlen

/-- What writeline_color_buffer puts behind the buffer's contents. -/
def recordText (content : Ptr) (len off1 colorlen : Nat) : List UInt8 :=
  slice content 0 off1 ++ hiliColor ++ slice content off1 colorlen ++ resetColor ++
    lineRest content (off1+colorlen) (restLimit len off1 colorlen)

variable {len off1 colorlen : Nat}

theorem TextRun.length_recordText
    (hi : TextRun content (off1+colorlen) (restLimit len off1 colorlen) i) :
    (recordText content len off1 colorlen).length = off1+19+colorlen+4+i := by
  simp only [recordText,List.length_append,length_slice,length_hiliColor,length_resetColor,
    hi.length_eq]

/-- The five copies are one, of the whole record text. -/
theorem put_recordText (buf : Ptr) (off : Nat)
    (hi : TextRun content (off1+colorlen) (restLimit len off1 colorlen) i) :
    put (put (put (put (put buf off (slice content 0 off1)) (off+off1) hiliColor)
      (off+off1+19) (slice content off1 colorlen)) (off+off1+19+colorlen) resetColor)
      (off+off1+19+colorlen+4) (slice content (off1+colorlen) i) =
    put buf off (recordText content len off1 colorlen) := by
  rw [recordText,hi.lineRest_eq,← put_put_append,← put_put_append,← put_put_append,
    ← put_put_append]
  simp [Nat.add_assoc]

theorem writelineColorBuffer_val {b b₁ : Buffer}
    (hg : (checkGrow b (len+sizeofHili+3)).val = some b₁)
    (hi : TextRun content (off1+colorlen) (restLimit len off1 colorlen) i) :
    (writelineColorBuffer b content len off1 colorlen).val =
      if i < 2^31 then some ((recordText content len off1 colorlen).length,
        { b₁ with buf := put b₁.buf b₁.off (recordText content len off1 colorlen),
                  off := b₁.off + u32 (u32 (off1+19+colorlen+4) + i) })
      else none := by
  have hloop := restLoop_val hi
  have hlit : slice (ofList hiliColor) 0 19 = hiliColor := slice_ofList _ rfl
  have hreset : slice (ofList resetColor) 0 4 = resetColor := slice_ofList _ rfl
  have hlen : b₁.off+off1+19+colorlen+4-b₁.off = off1+19+colorlen+4 := by omega
  unfold restLimit at hloop
  split
  · rename_i hsmall
    rw [if_pos hsmall] at hloop
    rw [writelineColorBuffer,Run.val_bind,hg,Option.bind_some]
    simp only [Run.val_bind,Option.bind_some,val_memcpy,sizeofHili_eq,Nat.add_one_sub_one,
      hlit,hreset,hloop,Run.val_pure,put_recordText _ _ hi,hlen,hi.length_recordText]
  · rename_i hlarge
    rw [if_neg hlarge] at hloop
    simp only [writelineColorBuffer,Run.val_bind,hg,Option.bind_some,val_memcpy,hloop,
      Option.bind_none]

theorem writelineColorBuffer_spec {b : Buffer} (hcap : 0 < b.cap)
    (hrest : (lineRest content (off1+colorlen) (restLimit len off1 colorlen)).length < 2^31)
    (hsmall : (recordText content len off1 colorlen).length < 2^32) :
    ∃ b', (writelineColorBuffer b content len off1 colorlen).val =
        some ((recordText content len off1 colorlen).length,b') ∧
      Appended b (len+23) (recordText content len off1 colorlen) b' := by
  obtain ⟨b₁,hv,hg,-⟩ := checkGrow_spec (len+sizeofHili+3) hcap
  obtain ⟨i,hi⟩ := exists_textRun content (off1+colorlen) (restLimit len off1 colorlen)
  have hlen := hi.length_recordText
  rw [hi.length_eq] at hrest
  refine ⟨_,by rw [writelineColorBuffer_val hv hi,if_pos hrest],?_⟩
  rw [u32_of_lt (x := off1+19+colorlen+4) (by omega),u32_of_lt (by omega)]
  exact hg.append _ (by rw [hg.off,hlen])

section cap
variable {b b' : Buffer} {len n : Nat}

theorem checkGrow_cap_le (hcap : 0 < b.cap) (h : (checkGrow b len).val = some b') :
    b.cap ≤ b'.cap := by
  obtain ⟨b₁,hv,hg,-⟩ := checkGrow_spec len hcap
  rw [hv,Option.some.injEq] at h
  exact h ▸ hg.cap.cap_le

theorem writeBuffer_cap_le (hcap : 0 < b.cap)
    (h : (writeBuffer b content len).val = some (n,b')) : b.cap ≤ b'.cap := by
  obtain ⟨b₁,hg,hrest⟩ := Run.bind_eq_some.mp h
  obtain ⟨_,-,heq⟩ := Run.bind_eq_some.mp hrest
  cases heq
  have hle : b.cap ≤ b₁.cap := checkGrow_cap_le hcap hg
  exact hle

theorem writelineBuffer_cap_le (hcap : 0 < b.cap)
    (h : (writelineBuffer b content len).val = some (n,b')) : b.cap ≤ b'.cap := by
  obtain ⟨b₁,hg,hrest⟩ := Run.bind_eq_some.mp h
  obtain ⟨_,-,hrest⟩ := Run.bind_eq_some.mp hrest
  obtain ⟨_,-,heq⟩ := Run.bind_eq_some.mp hrest
  cases heq
  have hle : b.cap ≤ b₁.cap := checkGrow_cap_le hcap hg
  exact hle

theorem writelineColorBuffer_cap_le (hcap : 0 < b.cap)
    (h : (writelineColorBuffer b content len off1 colorlen).val = some (n,b')) :
    b.cap ≤ b'.cap := by
  obtain ⟨b₁,hg,hrest⟩ := Run.bind_eq_some.mp h
  simp only [Run.bind_eq_some,Run.val_pure,Option.some.injEq,Prod.mk.injEq] at hrest
  obtain ⟨_,-,_,-,_,-,_,-,_,-,_,-,-,rfl⟩ := hrest
  have hle : b.cap ≤ b₁.cap := checkGrow_cap_le hcap hg
  exact hle

theorem amendlineColorBuffer_cap_le {lastlen cnt : Nat} (hcap : 0 < b.cap)
    (h : (amendlineColorBuffer b lastlen off1 colorlen cnt).val = some (n,b')) :
    b.cap ≤ b'.cap := by
  obtain ⟨b₁,hg,hrest⟩ := Run.bind_eq_some.mp h
  simp only [Run.bind_eq_some,Run.val_pure,Option.some.injEq,Prod.mk.injEq] at hrest
  obtain ⟨_,-,_,-,_,-,_,-,-,rfl⟩ := hrest
  have hle : b.cap ≤ b₁.cap := checkGrow_cap_le hcap hg
  exact hle

end cap

end SSearcher
