import SSearcher.BufferSpec
set_option autoImplicit false

namespace SSearcher
open Runs Memory

variable {buf : Ptr} {dst src T : Nat}

theorem strcpyStep_text {s : StrcpyLoop} (h : s.buf (src+s.i) ≠ 0) :
    (strcpyStep dst src s).val =
      some (.inl ⟨put s.buf (dst+s.i) [s.buf (src+s.i)],s.i+1⟩) := by
  simp [strcpyStep,h]

theorem strcpyStep_end {s : StrcpyLoop} (h : s.buf (src+s.i) = 0) :
    (strcpyStep dst src s).val = some (.inr (put s.buf (dst+s.i) [s.buf (src+s.i)])) := by
  simp [strcpyStep,h]

theorem strcpyStep_log (s : StrcpyLoop) : (strcpyStep dst src s).log =
    [.load .buf (src+s.i),.store .buf (dst+s.i)] := by
  by_cases h : s.buf (src+s.i) = 0 <;> simp [strcpyStep,h]

structure ShortString (buf : Ptr) (dst src T : Nat) : Prop where
  text : ∀ i, i < T → buf (src+i) ≠ 0
  nul : buf (src+T) = 0
  short : src+T < dst

theorem ShortString.read (h : ShortString buf dst src T) {i : Nat} (hi : i ≤ T) :
    put buf dst (slice buf src i) (src+i) = buf (src+i) := by
  have hlt := h.short
  exact put_below _ (by omega)

theorem ShortString.put_succ (h : ShortString buf dst src T) {i : Nat} (hi : i ≤ T) :
    put (put buf dst (slice buf src i)) (dst+i) [put buf dst (slice buf src i) (src+i)] =
      put buf dst (slice buf src (i+1)) := by
  rw [h.read hi,slice_succ,← put_put_append,length_slice]

theorem ShortString.step_text (h : ShortString buf dst src T) {i : Nat} (hi : i < T) :
    (strcpyStep dst src ⟨put buf dst (slice buf src i),i⟩).val =
      some (.inl ⟨put buf dst (slice buf src (i+1)),i+1⟩) := by
  have hne : put buf dst (slice buf src i) (src+i) ≠ 0 := by
    rw [h.read (Nat.le_of_lt hi)]
    exact h.text i hi
  rw [strcpyStep_text hne,← h.put_succ (Nat.le_of_lt hi)]

theorem ShortString.step_end (h : ShortString buf dst src T) :
    (strcpyStep dst src ⟨put buf dst (slice buf src T),T⟩).val =
      some (.inr (put buf dst (slice buf src (T+1)))) := by
  have hz : put buf dst (slice buf src T) (src+T) = 0 := by
    rw [h.read (Nat.le_refl T)]
    exact h.nul
  rw [strcpyStep_end hz,← h.put_succ (Nat.le_refl T)]

theorem ShortString.loop (h : ShortString buf dst src T) {n i : Nat} (hi : i ≤ T) (hn : T-i < n) :
    (Run.loop (strcpyStep dst src) n ⟨put buf dst (slice buf src i),i⟩).val =
        some (put buf dst (slice buf src (T+1))) ∧
      .store .buf (dst+T) ∈
        (Run.loop (strcpyStep dst src) n ⟨put buf dst (slice buf src i),i⟩).log := by
  induction n generalizing i with
  | zero => omega
  | succ n ih =>
    rcases Nat.eq_or_lt_of_le hi with rfl | hlt
    · rw [Run.loop_of_inr n h.step_end,strcpyStep_log]
      exact ⟨rfl,by simp⟩
    · rw [Run.loop_of_inl n (h.step_text hlt)]
      obtain ⟨hval,hlog⟩ := ih hlt (by omega)
      exact ⟨hval,List.mem_append_right _ hlog⟩

theorem ShortString.strcpy (h : ShortString buf dst src T) (cap : Nat) (hcap : T < cap) :
    (strcpy buf dst src cap).val = some (put buf dst (slice buf src (T+1))) ∧
      .store .buf (dst+T) ∈ (strcpy buf dst src cap).log := by
  have hloop := h.loop (n := cap) (Nat.zero_le T) hcap
  rwa [slice_zero,put_nil] at hloop

def CopyInv (buf : Ptr) (dst src T : Nat) (s : StrcpyLoop) : Prop :=
  s.i ≤ T ∧ s = ⟨put buf dst (slice buf src s.i),s.i⟩

theorem ShortString.inv_step (h : ShortString buf dst src T) (s s' : StrcpyLoop)
    (hi : CopyInv buf dst src T s) (hs : (strcpyStep dst src s).val = some (.inl s')) :
    CopyInv buf dst src T s' := by
  obtain ⟨hle,heq⟩ := hi
  rw [heq] at hs
  rcases Nat.eq_or_lt_of_le hle with hT | hlt
  · rw [hT,h.step_end] at hs
    cases hs
  · rw [h.step_text hlt] at hs
    cases hs
    exact ⟨hlt,rfl⟩

theorem ShortString.strcpy_log (h : ShortString buf dst src T) {cap : Nat} {e : Event}
    (he : e ∈ (SSearcher.strcpy buf dst src cap).log) :
    ∃ i, i ≤ T ∧ (e = .load .buf (src+i) ∨ e = .store .buf (dst+i)) := by
  obtain ⟨s,hr,hs⟩ := Run.loop_log he
  have hinv := hr.invariant h.inv_step ⟨Nat.zero_le T,by simp⟩
  rw [strcpyStep_log] at hs
  exact ⟨s.i,hinv.1,by simpa using hs⟩

/-- A string that reaches the place it is copied to loses its terminator before the
copy gets there, and the copy never ends. -/
theorem strcpy_none {cap d : Nat} (hd : dst = src+d) (htext : ∀ i, i < d → buf (src+i) ≠ 0)
    (hpos : 0 < d) : (strcpy buf dst src cap).val = none := by
  rw [Option.eq_none_iff_forall_ne_some]
  intro m hm
  obtain ⟨s,hr,hs⟩ := Run.loop_exit hm
  have hinv : ∀ j, s.i ≤ j → j < s.i+d → s.buf (src+j) ≠ 0 := by
    refine hr.invariant (I := fun s => ∀ j, s.i ≤ j → j < s.i+d → s.buf (src+j) ≠ 0) ?_
      fun j _ hj => htext j (by simpa using hj)
    intro s s' hi hstep
    have hne := hi s.i (Nat.le_refl _) (by omega)
    rw [strcpyStep_text hne] at hstep
    cases hstep
    intro j hj hlt
    simp only at hj hlt ⊢
    rw [put_singleton]
    split
    · exact hne
    · exact hi j (by omega) (by omega)
  rw [strcpyStep_text (hinv s.i (Nat.le_refl _) (by omega))] at hs
  cases hs

theorem val_memcpyWithin (r : Region) (buf : Ptr) (d s n : Nat) :
    (memcpyWithin r buf d s n).val =
      if s+n ≤ d ∨ d+n ≤ s then some (put buf d (slice buf s n)) else none := by
  simp only [memcpyWithin,Run.val_bind,val_memcpy,Option.bind_some]
  split <;> rfl

/-- The last record of the buffer holds a match at `a`, with the tail of a line
behind it. -/
structure AmendAt (b : Buffer) (lastlen off1 colorlen cnt a : Nat) : Prop where
  start : b.off-lastlen+off1+cnt*23 = a
  last : lastlen ≤ b.off
  inside : a+colorlen ≤ b.off
  text : ∀ i, a+colorlen ≤ i → i < b.off → b.buf i ≠ 0
  nul : b.buf b.off = 0
  room : b.off < b.cap
  small : b.cap < 2^64

variable {b b₁ : Buffer} {lastlen off1 colorlen cnt a : Nat}

theorem AmendAt.start_eq (h : AmendAt b lastlen off1 colorlen cnt a) :
    (subSize b.off lastlen+off1+cnt*(sizeofHili+3)) % 2^64 = a := by
  have hstart := h.start
  have hin := h.inside
  have hroom := h.room
  have hsmall := h.small
  rw [subSize_of_le h.last (by omega),sizeofHili_eq]
  omega

theorem AmendAt.grown_nul (h : AmendAt b lastlen off1 colorlen cnt a)
    (hg : (checkGrow b 23).val = some b₁) : b₁.buf b.off = 0 := by
  unfold checkGrow at hg
  split at hg
  · obtain ⟨c,hc,hgrown⟩ := growLoop_spec (23+b.off) (Nat.lt_of_le_of_lt (Nat.zero_le _) h.room)
    have hroom := hgrown.room
    simp [bufferGrow,hc] at hg
    subst hg
    have hlen : 0 < (List.replicate (c-b.off) (0 : UInt8)).length := by simp; omega
    have hput := put_at (m := b.buf) (a := b.off) hlen
    simpa using hput
  · cases hg
    exact h.nul

theorem AmendAt.shortString (h : AmendAt b lastlen off1 colorlen cnt a)
    (hg : (checkGrow b 23).val = some b₁) (hshort : b.off-(a+colorlen) < 23) :
    ShortString b₁.buf (a+colorlen+23) (a+colorlen) (b.off-(a+colorlen)) := by
  have hin := h.inside
  obtain ⟨b',hv,hgrown,-⟩ := checkGrow_spec (b := b) 23 (Nat.zero_lt_of_lt h.room)
  obtain rfl : b' = b₁ := Option.some.inj (hv.symm.trans hg)
  refine ⟨fun i hi => ?_,?_,by omega⟩
  · rw [hgrown.kept _ (by omega)]
    exact h.text _ (by omega) (by omega)
  · rw [Nat.add_sub_cancel' hin]
    exact h.grown_nul hg

theorem amendlineColorBuffer_val (h : AmendAt b lastlen off1 colorlen cnt a)
    (hg : (checkGrow b 23).val = some b₁) :
    (amendlineColorBuffer b lastlen off1 colorlen cnt).val =
      (strcpy b₁.buf (a+colorlen+23) (a+colorlen) b₁.cap).val.bind fun buf =>
        if colorlen ≤ 19 then some (23,{ b₁ with
          buf := put (put (put buf (a+19) (slice buf a colorlen)) a hiliColor)
            (a+19+colorlen) resetColor
          off := b.off+23 }) else none := by
  obtain ⟨b',hv,hgrown,-⟩ := checkGrow_spec (b := b) 23 (Nat.zero_lt_of_lt h.room)
  obtain rfl : b' = b₁ := Option.some.inj (hv.symm.trans hg)
  have hlit : slice (ofList hiliColor) 0 19 = hiliColor := slice_ofList _ rfl
  have hreset : slice (ofList resetColor) 0 4 = resetColor := slice_ofList _ rfl
  have hstart := h.start_eq
  rw [← hgrown.off] at hstart
  rw [amendlineColorBuffer,Run.val_bind,sizeofHili_eq,hv,Option.bind_some]
  rw [sizeofHili_eq] at hstart
  simp only [hstart,Run.val_bind]
  simp only [Nat.add_assoc,Nat.reduceAdd,Nat.add_one_sub_one]
  refine congrArg (Option.bind _) (funext fun buf => ?_)
  have hapart : a+colorlen ≤ a+19 ∨ a+(19+colorlen) ≤ a ↔ colorlen ≤ 19 := by omega
  rw [val_memcpyWithin]
  simp only [Nat.add_assoc,hapart,hgrown.off]
  split
  · simp only [Option.bind_some,val_memcpy,Run.val_pure,hlit,hreset]
  · rfl

theorem put_amended (buf : Ptr) (a c : Nat) (t : List UInt8) :
    put (put (put (put buf (a+c+23) t) (a+19) (slice (put buf (a+c+23) t) a c)) a hiliColor)
        (a+19+c) resetColor =
      put buf a (hiliColor ++ slice buf a c ++ resetColor ++ t) := by
  have hlen : (slice buf a c).length = c := length_slice buf a c
  have h₁ : put (put buf (a+c+23) t) (a+19) (slice buf a c) =
      put (put buf (a+19) (slice buf a c)) (a+c+23) t := put_comm t (by rw [hlen]; omega)
  have h₂ : put (put (put buf (a+19) (slice buf a c)) (a+c+23) t) a hiliColor =
      put (put (put buf (a+19) (slice buf a c)) a hiliColor) (a+c+23) t :=
    put_comm t (by rw [length_hiliColor]; omega)
  have h₃ : put (put buf (a+19) (slice buf a c)) a hiliColor =
      put (put buf a hiliColor) (a+19) (slice buf a c) := put_comm _ (Nat.le_refl _)
  rw [slice_put_below t (by omega),h₁,h₂,h₃,put_comm t (by rw [length_resetColor]; omega)]
  rw [← put_put_append,← put_put_append,← put_put_append]
  simp only [List.length_append,length_hiliColor,hlen,length_resetColor]
  rw [show a+c+23 = a+(19+c+4) by omega,Nat.add_assoc a 19 c]

structure Amended (b : Buffer) (colorlen a : Nat) (b' : Buffer) : Prop where
  off : b'.off = b.off+23
  cap : GrownTo b.cap (b.off+23) b'.cap
  contents : b'.contents = slice b.buf 0 a ++ hiliColor ++ slice b.buf a colorlen ++
    resetColor ++ slice b.buf (a+colorlen) (b.off-(a+colorlen))
  tail : b.TailZero → b'.TailZero

theorem amendlineColorBuffer_spec (h : AmendAt b lastlen off1 colorlen cnt a)
    (hshort : b.off-(a+colorlen) < 23) (hc : colorlen ≤ 19) :
    ∃ b', (amendlineColorBuffer b lastlen off1 colorlen cnt).val = some (23,b') ∧
      Amended b colorlen a b' := by
  obtain ⟨b₁,hg,hgrown,-⟩ := checkGrow_spec (b := b) 23 (Nat.zero_lt_of_lt h.room)
  have hin := h.inside
  have hroom := h.room
  have hcap := hgrown.cap.cap_le
  have hkept : ∀ i n, i+n ≤ b.off → slice b₁.buf i n = slice b.buf i n := fun i n hi =>
    slice_congr fun j hj => hgrown.kept _ (by omega)
  have hnul := h.grown_nul hg
  obtain ⟨hcopy,-⟩ := (h.shortString hg hshort).strcpy b₁.cap (by omega)
  refine ⟨_,by rw [amendlineColorBuffer_val h hg,hcopy,Option.bind_some,if_pos hc],?_⟩
  have hmove := put_amended b₁.buf a colorlen
    (slice b₁.buf (a+colorlen) (b.off-(a+colorlen)) ++ [0])
  have hend : a+colorlen+(b.off-(a+colorlen)) = b.off := by omega
  rw [slice_succ,hend,hnul,hmove,← List.append_assoc,← put_put_append]
  refine ⟨rfl,hgrown.cap,?_,fun ht i hi hic => ?_⟩
  · rw [Buffer.contents,slice_put_below _ (by simp; omega),slice_put_append (by simp; omega),
      hkept 0 a (by omega),hkept a colorlen hin,hkept (a+colorlen) _ (by omega)]
    simp only [List.append_assoc]
  · simp only [List.length_append,length_hiliColor,length_slice,length_resetColor] at hi ⊢
    rw [put_singleton]
    split
    · rfl
    · rw [put_above (by simp; omega)]
      exact hgrown.tail ht i (by rw [hgrown.off]; omega) hic

/-- A long tail is copied without end, and a long pattern is copied onto itself. -/
theorem amendlineColorBuffer_none (h : AmendAt b lastlen off1 colorlen cnt a)
    (hlong : 23 ≤ b.off-(a+colorlen) ∨ 19 < colorlen) :
    (amendlineColorBuffer b lastlen off1 colorlen cnt).val = none := by
  obtain ⟨b₁,hg,hgrown,-⟩ := checkGrow_spec (b := b) 23 (Nat.zero_lt_of_lt h.room)
  rw [amendlineColorBuffer_val h hg]
  rcases hlong with htail | hc
  · rw [strcpy_none (d := 23) rfl (fun i hi => ?_) (by decide),Option.bind_none]
    rw [hgrown.kept _ (by omega)]
    exact h.text _ (by omega) (by omega)
  · simp [Nat.not_le.mpr hc]

/-- The states of a result buffer: after init_buffer, any writes and amendments. -/
inductive Reached : Buffer → Prop where
  | init {b b' : Buffer} : (initBuffer b).val = some b' → Reached b'
  | write {b b' : Buffer} {content : Ptr} {len n : Nat} : Reached b →
      (writeBuffer b content len).val = some (n,b') → Reached b'
  | line {b b' : Buffer} {content : Ptr} {len n : Nat} : Reached b →
      (writelineBuffer b content len).val = some (n,b') → Reached b'
  | colorLine {b b' : Buffer} {content : Ptr} {len off1 colorlen n : Nat} : Reached b →
      (writelineColorBuffer b content len off1 colorlen).val = some (n,b') → Reached b'
  | amend {b b' : Buffer} {lastlen off1 colorlen cnt n : Nat} : Reached b →
      (amendlineColorBuffer b lastlen off1 colorlen cnt).val = some (n,b') → Reached b'

theorem Reached.cap_ge {b : Buffer} (h : Reached b) : defaultSize ≤ b.cap := by
  have hpos : ∀ {c : Nat}, defaultSize ≤ c → 0 < c := Nat.lt_of_lt_of_le (by decide)
  induction h with
  | init h => exact Nat.le_of_eq (initBuffer_empty h).cap.symm
  | write _ h ih => exact Nat.le_trans ih (writeBuffer_cap_le (hpos ih) h)
  | line _ h ih => exact Nat.le_trans ih (writelineBuffer_cap_le (hpos ih) h)
  | colorLine _ h ih => exact Nat.le_trans ih (writelineColorBuffer_cap_le (hpos ih) h)
  | amend _ h ih => exact Nat.le_trans ih (amendlineColorBuffer_cap_le (hpos ih) h)

theorem AmendAt.store_nul (h : AmendAt b lastlen off1 colorlen cnt a)
    (hg : (checkGrow b 23).val = some b₁) (hshort : b.off-(a+colorlen) < 23) :
    .store .buf (b.off+23) ∈ (amendlineColorBuffer b lastlen off1 colorlen cnt).log := by
  obtain ⟨b',hv,hgrown,-⟩ := checkGrow_spec (b := b) 23 (Nat.zero_lt_of_lt h.room)
  obtain rfl : b' = b₁ := Option.some.inj (hv.symm.trans hg)
  have hin := h.inside
  have hroom := h.room
  have hcap := hgrown.cap.cap_le
  have hstart := h.start_eq
  rw [← hgrown.off] at hstart
  obtain ⟨-,hlog⟩ := (h.shortString hg hshort).strcpy b'.cap (by omega)
  refine Run.mem_log_bind.mpr (.inr ⟨b',hv,Run.mem_log_bind.mpr (.inl ?_)⟩)
  have hend : a+colorlen+23+(b.off-(a+colorlen)) = b.off+23 := by omega
  rw [hend] at hlog
  rw [hstart,sizeofHili_eq]
  exact hlog

theorem AmendAt.store_le (h : AmendAt b lastlen off1 colorlen cnt a)
    (hg : (checkGrow b 23).val = some b₁) (hshort : b.off-(a+colorlen) < 23) {i : Nat}
    (hi : .store .buf i ∈ (amendlineColorBuffer b lastlen off1 colorlen cnt).log) :
    i < b₁.cap ∨ i ≤ b.off+23 := by
  obtain ⟨b',hv,hgrown,hlog⟩ := checkGrow_spec (b := b) 23 (Nat.zero_lt_of_lt h.room)
  obtain rfl : b' = b₁ := Option.some.inj (hv.symm.trans hg)
  have hin := h.inside
  have hstart := h.start_eq
  rw [← hgrown.off] at hstart
  have hcopy : ∀ {rs : Region} {m src : Ptr} {d s n : Nat}, d+n ≤ b.off+23 →
      .store .buf i ∈ (memcpy .buf rs m d src s n).log → i ≤ b.off+23 := by
    intro rs m src d s n hd he
    simp only [log_memcpy,List.mem_append,List.mem_map,List.mem_range,reduceCtorEq,and_false,
      exists_false,false_or,Event.store.injEq,true_and] at he
    obtain ⟨j,hj,rfl⟩ := he
    omega
  rcases Run.mem_log_bind.mp hi with he | ⟨b₂,hb₂,hi⟩
  · obtain ⟨j,heq,hj⟩ := hlog _ he
    cases heq
    exact .inl hj
  obtain rfl : b' = b₂ := Option.some.inj (hv.symm.trans hb₂)
  right
  rw [hstart,sizeofHili_eq] at hi
  rcases Run.mem_log_bind.mp hi with he | ⟨buf,-,hi⟩
  · obtain ⟨j,hj,heq⟩ := (h.shortString hg hshort).strcpy_log he
    rcases heq with heq | heq
    · cases heq
    · cases heq
      omega
  rcases Run.mem_log_bind.mp hi with he | ⟨buf',-,hi⟩
  · rcases Run.mem_log_bind.mp he with he | ⟨_,-,he⟩
    · exact hcopy (by omega) he
    · split at he <;> simp at he
  rcases Run.mem_log_bind.mp hi with he | ⟨buf'',-,hi⟩
  · exact hcopy (by omega) he
  rcases Run.mem_log_bind.mp hi with he | ⟨_,-,hi⟩
  · exact hcopy (by omega) he
  · simp at hi

/-- Every store of an amendment is below the capacity, unless the record before it ends
23 bytes below the capacity: then the terminator is stored behind the block. -/
theorem amend_stores_iff {b : Buffer} (hr : Reached b) (hsmall : b.cap < 2^64)
    (hroom : b.off < b.cap) (hnul : b.buf b.off = 0) (hno : 0 ∉ b.contents)
    (lastlen off1 colorlen cnt : Nat) (hlast : lastlen ≤ b.off)
    (hin : off1+cnt*23+colorlen ≤ lastlen) (hshort : lastlen-(off1+cnt*23+colorlen) < 23) :
    (∃ b₁, (checkGrow b (sizeofHili+3)).val = some b₁ ∧
      ∀ i, .store .buf i ∈ (amendlineColorBuffer b lastlen off1 colorlen cnt).log → i < b₁.cap) ↔
    b.off+23 ≠ b.cap := by
  have htext : ∀ i, i < b.off → b.buf i ≠ 0 := fun i hi hz =>
    hno (mem_slice.mpr ⟨i,hi,by rwa [Nat.zero_add]⟩)
  have hat : AmendAt b lastlen off1 colorlen cnt (b.off-lastlen+off1+cnt*23) :=
    ⟨rfl,hlast,by omega,fun i _ hi => htext i hi,hnul,hroom,hsmall⟩
  have htail : b.off-(b.off-lastlen+off1+cnt*23+colorlen) < 23 := by omega
  obtain ⟨b₁,hg,hgrown,-⟩ := checkGrow_spec (b := b) 23 (Nat.zero_lt_of_lt hroom)
  constructor
  · rintro ⟨b',hg',hstores⟩ heq
    obtain rfl : b₁ = b' := Option.some.inj (hg.symm.trans hg')
    have hlt := hstores _ (hat.store_nul hg htail)
    rw [hgrown.cap.eq_of_le (Nat.le_of_eq heq)] at hlt
    omega
  · intro hne
    refine ⟨b₁,hg,fun i hi => ?_⟩
    -- a doubled capacity exceeds the request by far, since `off` was below the old one
    have hlt : b.off+23 < b₁.cap := by
      have hge := hr.cap_ge
      obtain ⟨hfit,k,heq,-⟩ := hgrown.cap
      cases k with
      | zero => omega
      | succ k =>
        have hk : 0 < 2^k := Nat.two_pow_pos k
        have hdouble : b.cap*2 ≤ b₁.cap := by
          rw [heq]
          exact Nat.mul_le_mul_left _ (by rw [Nat.pow_succ]; omega)
        rw [defaultSize] at hge
        omega
    rcases hat.store_le hg htail hi with h | h
    · exact h
    · omega

theorem amend_stores_ab : ∃ b b₁, Reached b ∧ b.contents = [97,98] ∧
    (checkGrow b (sizeofHili+3)).val = some b₁ ∧
    ∀ i, .store .buf i ∈ (amendlineColorBuffer b 2 1 1 0).log → i < b₁.cap := by
  obtain ⟨b,hv,happ⟩ := writeBuffer_spec (b := freshBuffer) (ofList [97,98]) 2 (by decide)
  have hcap : b.cap = 4096 := happ.cap.eq_of_le (by decide)
  have hoff : b.off = 2 := happ.off
  have hnul : b.buf b.off = 0 := happ.tail (fun _ _ _ => rfl) _ (Nat.le_refl _) (by omega)
  have hcontents : b.contents = [97,98] := happ.contents
  have hr : Reached b := .write (.init freshBuffer_init) hv
  obtain ⟨b₁,hg,hstores⟩ := (amend_stores_iff hr (by omega) (by omega) hnul
    (by rw [hcontents]; decide) 2 1 1 0 (by omega) (by decide) (by decide)).mpr (by omega)
  exact ⟨b,b₁,hr,hcontents,hg,hstores⟩

theorem amend_overflow : ∃ b b₁, Reached b ∧ b.off < b.cap ∧ b.buf b.off = 0 ∧
    0 ∉ b.contents ∧ 4073 ≤ b.off ∧ (checkGrow b (sizeofHili+3)).val = some b₁ ∧
    .store .buf b₁.cap ∈ (amendlineColorBuffer b 4073 4049 1 1).log := by
  obtain ⟨b,hv,happ⟩ := writeBuffer_spec (b := freshBuffer) (fun _ => 97) 4073 (by decide)
  have hcap : b.cap = 4096 := happ.cap.eq_of_le (by simp [freshBuffer,defaultSize])
  have hoff : b.off = 4073 := by
    rw [happ.off,length_slice]
    rfl
  have hnul : b.buf b.off = 0 := happ.tail (fun _ _ _ => rfl) _ (Nat.le_refl _) (by omega)
  have hno : 0 ∉ b.contents := by
    rw [happ.contents,(initBuffer_empty freshBuffer_init).contents,List.nil_append]
    intro hz
    obtain ⟨_,-,heq⟩ := mem_slice.mp hz
    exact absurd (show (97 : UInt8) = 0 from heq) (by decide)
  have hat : AmendAt b 4073 4049 1 1 4072 :=
    ⟨by omega,by omega,by omega,fun i _ hi hz => hno (mem_slice.mpr ⟨i,hi,by rwa [Nat.zero_add]⟩),
      hnul,by omega,by omega⟩
  obtain ⟨b₁,hg,hgrown,-⟩ := checkGrow_spec (b := b) 23 (by omega)
  have hcap₁ : b₁.cap = b.off+23 := by
    rw [hgrown.cap.eq_of_le (by omega)]
    omega
  refine ⟨b,b₁,.write (.init freshBuffer_init) hv,by omega,hnul,hno,by omega,hg,?_⟩
  rw [hcap₁]
  exact hat.store_nul hg (by omega)

end SSearcher
