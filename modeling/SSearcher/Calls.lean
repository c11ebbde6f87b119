import SSearcher.BufferSpec
set_option autoImplicit false

namespace SSearcher
open Runs Memory

/-- The writers of buffer.c that append, with their arguments. -/
inductive Call where
  | write (content : Ptr) (len : Nat)
  | line (content : Ptr) (len : Nat)
  | colorLine (content : Ptr) (len off1 colorlen : Nat)

namespace Call

def exec (b : Buffer) : Call → Prog (Nat × Buffer)
  | write content len => writeBuffer b content len
  | line content len => writelineBuffer b content len
  | colorLine content len off1 colorlen => writelineColorBuffer b content len off1 colorlen

/-- Lengths are size_t, and the highlighted part lies in the content. -/
def Valid : Call → Prop
  | write _ _ | line _ _ => True
  | colorLine _ len off1 colorlen => off1+colorlen ≤ len ∧ len < 2^64

def content : Call → Ptr
  | write content _ | line content _ | colorLine content _ _ _ => content

def len : Call → Nat
  | write _ len | line _ len | colorLine _ len _ _ => len

def rest : Call → List UInt8
  | write _ _ => []
  | line content len => (slice content 0 len).takeWhile fun x => x != newline
  | colorLine content len off1 colorlen => lineRest content (off1+colorlen) (len-off1-colorlen)

def piece : Call → List UInt8
  | write content len => slice content 0 len
  | line content len => (slice content 0 len).takeWhile fun x => x != newline
  | colorLine content len off1 colorlen => slice content 0 off1 ++ hiliColor ++
      slice content off1 colorlen ++ resetColor ++
      lineRest content (off1+colorlen) (len-off1-colorlen)

def room : Call → Nat
  | write _ len | line _ len => len
  | colorLine _ len _ _ => len+23

/-- The int that counts the copied bytes, and the uint32_t sum of the colour writer,
hold their values. -/
def Fits : Call → Prop
  | write _ _ => True
  | line content len => (line content len).piece.length < 2^31
  | colorLine content len off1 colorlen =>
      (colorLine content len off1 colorlen).rest.length < 2^31 ∧
      (colorLine content len off1 colorlen).piece.length < 2^32

end Call

def runCalls (b : Buffer) : List Call → Prog (List Nat × Buffer)
  | [] => return ([],b)
  | c :: cs => do
    let (n,b) ← c.exec b
    let (ns,b) ← runCalls b cs
    return (n :: ns,b)

def requests (off : Nat) : List Call → List Nat
  | [] => []
  | c :: cs => (off+c.room) :: requests (off+c.piece.length) cs

/-- `cap` is the least doubling of the first block with room for every request. -/
structure LeastCap (needs : List Nat) (cap : Nat) : Prop where
  room : ∀ x, x ∈ needs → x ≤ cap
  least : ∃ k, cap = defaultSize*2^k ∧ ∀ j, j < k → ∃ x, x ∈ needs ∧ defaultSize*2^j < x

theorem LeastCap.eq {needs : List Nat} {cap cap' : Nat} (h : LeastCap needs cap)
    (h' : LeastCap needs cap') : cap = cap' := by
  obtain ⟨hroom,k,rfl,hleast⟩ := h
  obtain ⟨hroom',k',rfl,hleast'⟩ := h'
  have hle : ¬ k < k' := by
    intro hlt
    obtain ⟨x,hx,hgt⟩ := hleast' k hlt
    have := hroom x hx
    omega
  have hge : ¬ k' < k := by
    intro hlt
    obtain ⟨x,hx,hgt⟩ := hleast k' hlt
    have := hroom' x hx
    omega
  obtain rfl : k = k' := by omega
  rfl

theorem LeastCap.grown {needs : List Nat} {cap need cap' : Nat} (h : LeastCap needs cap)
    (hg : GrownTo cap need cap') : LeastCap (needs ++ [need]) cap' := by
  have hcap := hg.cap_le
  obtain ⟨hroom,k,rfl,hleast⟩ := h
  obtain ⟨hneed,i,rfl,hi⟩ := hg
  refine ⟨fun x hx => ?_,k+i,by rw [Nat.pow_add,Nat.mul_assoc],fun j hj => ?_⟩
  · rcases List.mem_append.mp hx with hx | hx
    · exact Nat.le_trans (hroom x hx) hcap
    · obtain rfl := List.mem_singleton.mp hx
      exact hneed
  · rcases Nat.lt_or_ge j k with hlt | hge
    · obtain ⟨x,hx,hgt⟩ := hleast j hlt
      exact ⟨x,List.mem_append_left _ hx,hgt⟩
    · obtain ⟨d,rfl⟩ : ∃ d, j = k+d := ⟨j-k,by omega⟩
      refine ⟨need,by simp,?_⟩
      rw [Nat.pow_add,← Nat.mul_assoc]
      exact hi d (by omega)

theorem leastCap_empty : LeastCap [] defaultSize := ⟨by simp,0,by simp,by omega⟩

variable {b b' : Buffer} {c : Call}

theorem lineStep_spec {content : Ptr} {len i : Nat} (hi : i ≤ len)
    (htext : ∀ j, j < i → (content j != newline) = true)
    (hstop : i < len → (content i != newline) = false) :
    (Run.loop (lineStep content len) (len+1) 0).val = if i < 2^31 then some i else none := by
  refine countLoop_val (fun j hj => ?_) ?_ (Nat.lt_succ_of_le hi)
  · have hne : content j ≠ newline := by simpa using htext j hj
    simp only [lineStep,if_pos (Nat.lt_of_lt_of_le hj hi),Run.val_bind,val_load,
      Option.bind_some,if_pos hne,Run.val_pure]
    cases (incInt j).val <;> rfl
  · by_cases hlt : i < len
    · have he : ¬ content i ≠ newline := by simpa using hstop hlt
      simp only [lineStep,if_pos hlt,Run.val_bind,val_load,Option.bind_some,if_neg he,
        Run.val_pure]
    · simp only [lineStep,if_neg hlt,Run.val_pure]

theorem writelineBuffer_val (content : Ptr) (len : Nat) (hcap : 0 < b.cap) :
    ((Call.line content len).Fits → ∃ b', (writelineBuffer b content len).val =
        some ((Call.line content len).piece.length,b') ∧
      Appended b len (Call.line content len).piece b') ∧
    (¬ (Call.line content len).Fits → (writelineBuffer b content len).val = none) := by
  obtain ⟨i,hi,htext,hstop⟩ := exists_run (fun x => x != newline) content 0 len
  simp only [Nat.zero_add] at htext hstop
  have hpiece : (Call.line content len).piece = slice content 0 i :=
    takeWhile_slice hi (by simpa using htext) (by simpa using hstop)
  have hloop := lineStep_spec hi htext hstop
  obtain ⟨b₁,hv,hg,-⟩ := checkGrow_spec len hcap
  constructor
  · intro hfits
    rw [Call.Fits,hpiece,length_slice] at hfits
    rw [if_pos hfits] at hloop
    rw [hpiece,length_slice]
    refine ⟨_,by simp only [writelineBuffer,Run.val_bind,hv,Option.bind_some,hloop,val_memcpy,
      Run.val_pure]; rfl,?_⟩
    exact hg.append _ (by rw [hg.off,length_slice])
  · intro hlarge
    rw [Call.Fits,hpiece,length_slice] at hlarge
    rw [if_neg hlarge] at hloop
    simp only [writelineBuffer,Run.val_bind,hv,Option.bind_some,hloop,Option.bind_none]

theorem recordText_piece_eq {content : Ptr} {len off1 colorlen : Nat}
    (h : (Call.colorLine content len off1 colorlen).Valid) :
    recordText content len off1 colorlen = (Call.colorLine content len off1 colorlen).piece := by
  obtain ⟨hle,hlen⟩ := h
  rw [recordText,Call.piece,restLimit,subSize_of_le (b := off1) (by omega) hlen,
    subSize_of_le (by omega) (by omega)]

theorem Call.exec_spec (hvalid : c.Valid) (hcap : 0 < b.cap) (hfits : c.Fits) :
    ∃ b', (c.exec b).val = some (c.piece.length,b') ∧ Appended b c.room c.piece b' := by
  cases c with
  | write content len =>
    obtain ⟨b',hv,ha⟩ := writeBuffer_spec content len hcap
    refine ⟨b',?_,ha⟩
    rw [Call.exec,hv,Call.piece,length_slice]
  | line content len => exact (writelineBuffer_val content len hcap).1 hfits
  | colorLine content len off1 colorlen =>
    have he := recordText_piece_eq hvalid
    have hrest : lineRest content (off1+colorlen) (restLimit len off1 colorlen) =
        (Call.colorLine content len off1 colorlen).rest := by
      obtain ⟨hle,hlen⟩ := hvalid
      rw [restLimit,subSize_of_le (b := off1) (by omega) hlen,subSize_of_le (by omega) (by omega)]
      rfl
    obtain ⟨b',hv,ha⟩ := writelineColorBuffer_spec (b := b) hcap (by rw [hrest]; exact hfits.1)
      (by rw [he]; exact hfits.2)
    rw [he] at hv ha
    exact ⟨b',hv,ha⟩

/-- The calls so far keep the buffer a list that grows at its end: `l` was written,
`needs` were the requests. -/
structure Written (l : List UInt8) (needs : List Nat) (b : Buffer) : Prop where
  contents : b.contents = l
  fits : b.off ≤ b.cap
  tail : b.TailZero
  cap : LeastCap needs b.cap

theorem Written.off {l : List UInt8} {needs : List Nat} (h : Written l needs b) :
    b.off = l.length := by rw [← h.contents,Buffer.length_contents]

theorem Written.cap_pos {l : List UInt8} {needs : List Nat} (h : Written l needs b) :
    0 < b.cap := by
  obtain ⟨-,k,hk,-⟩ := h.cap
  have : 0 < 2^k := Nat.two_pow_pos k
  rw [hk]
  exact Nat.mul_pos (by decide) this

theorem Buffer.Empty.written (h : b.Empty) : Written [] [] b :=
  ⟨h.contents,by rw [h.off]; exact Nat.zero_le _,h.tail,h.cap ▸ leastCap_empty⟩

theorem piece_le_room (hvalid : c.Valid) : c.piece.length ≤ c.room := by
  cases c with
  | write content len => simp [Call.piece,Call.room]
  | line content len =>
    have hsub := (List.takeWhile_sublist (l := slice content 0 len)
      fun x => x != newline).length_le
    rwa [length_slice] at hsub
  | colorLine content len off1 colorlen =>
    obtain ⟨hle,-⟩ := hvalid
    obtain ⟨i,hi⟩ := exists_textRun content (off1+colorlen) (len-off1-colorlen)
    have hlen := hi.length_eq
    have hmax := hi.le
    simp only [Call.piece,Call.room,List.length_append,length_slice,length_hiliColor,
      length_resetColor]
    omega

theorem Written.exec {l : List UInt8} {needs : List Nat} (h : Written l needs b)
    (hvalid : c.Valid) (hfits : c.Fits) : ∃ b', (c.exec b).val = some (c.piece.length,b') ∧
      Written (l ++ c.piece) (needs ++ [l.length+c.room]) b' := by
  obtain ⟨b',hv,ha⟩ := c.exec_spec hvalid h.cap_pos hfits
  have hoff := h.off
  have hroom := piece_le_room hvalid
  have hneed := ha.cap.room
  have hcap := h.cap.grown ha.cap
  rw [hoff] at hcap
  refine ⟨b',hv,by rw [ha.contents,h.contents],?_,ha.tail h.tail,hcap⟩
  rw [ha.off]
  omega

theorem Written.run {cs : List Call} {l : List UInt8} {needs : List Nat} {b : Buffer}
    (h : Written l needs b)
    (hvalid : ∀ c, c ∈ cs → c.Valid) (hfits : ∀ c, c ∈ cs → c.Fits) :
    ∃ b', (runCalls b cs).val = some (cs.map fun c => c.piece.length,b') ∧
      Written (l ++ cs.flatMap Call.piece) (needs ++ requests l.length cs) b' := by
  induction cs generalizing l needs b with
  | nil => exact ⟨b,rfl,by simpa [requests] using h⟩
  | cons c cs ih =>
    obtain ⟨hv₁,hvalid⟩ := List.forall_mem_cons.mp hvalid
    obtain ⟨hf₁,hfits⟩ := List.forall_mem_cons.mp hfits
    obtain ⟨b₁,hval₁,h₁⟩ := h.exec hv₁ hf₁
    obtain ⟨b',hval,h'⟩ := ih h₁ hvalid hfits
    refine ⟨b',?_,?_⟩
    · rw [runCalls,Run.val_bind,hval₁,Option.bind_some,Run.val_bind,hval,Option.bind_some]
      rfl
    · rw [List.length_append] at h'
      simpa [requests,List.append_assoc] using h'

theorem Call.fits_of_len (hvalid : c.Valid) (hlen : c.len < 2^31) : c.Fits := by
  cases c with
  | write => trivial
  | line content len =>
    exact Nat.lt_of_le_of_lt (piece_le_room (c := .line content len) trivial) hlen
  | colorLine content len off1 colorlen =>
    have hle := piece_le_room hvalid
    obtain ⟨i,hi⟩ := exists_textRun content (off1+colorlen) (len-off1-colorlen)
    have hrest : (Call.colorLine content len off1 colorlen).rest.length = i := hi.length_eq
    have hmax := hi.le
    simp only [Call.len] at hlen
    exact ⟨by omega,Nat.lt_of_le_of_lt hle (by simp only [Call.room]; omega)⟩

/-- From init_buffer or reset_buffer on, the writers append their pieces in call
order and return what they appended; the buffer never leaves its block, its free
part is zero, and its block is the least doubling that had room for every request. -/
theorem calls_append {b₀ b : Buffer}
    (hb : (initBuffer b₀).val = some b ∨ (resetBuffer b₀).val = some b) (calls : List Call)
    (hvalid : ∀ c, c ∈ calls → c.Valid) (hlen : ∀ c, c ∈ calls → c.len < 2^31) :
    (∃ b', (runCalls b calls).val = some (calls.map fun c => c.piece.length,b') ∧
      b'.contents = calls.flatMap Call.piece ∧ b'.off ≤ b'.cap ∧
      (∀ i, b'.off ≤ i → i < b'.cap → b'.buf i = 0) ∧ LeastCap (requests 0 calls) b'.cap) ∧
    ∀ cs c cs', calls = cs ++ c :: cs' → ∃ ns b₁ b₂, (runCalls b cs).val = some (ns,b₁) ∧
      (c.exec b₁).val = some (b₂.off-b₁.off,b₂) ∧ b₁.off ≤ b₂.off := by
  have he : b.Empty := hb.elim initBuffer_empty initBuffer_empty
  have hfits : ∀ c, c ∈ calls → c.Fits := fun c hc => Call.fits_of_len (hvalid c hc) (hlen c hc)
  constructor
  · obtain ⟨b',hv,h⟩ := he.written.run hvalid hfits
    exact ⟨b',hv,h.contents,h.fits,h.tail,h.cap⟩
  · rintro cs c cs' rfl
    obtain ⟨b₁,hv₁,h₁⟩ := he.written.run (fun x hx => hvalid x (List.mem_append_left _ hx))
      fun x hx => hfits x (List.mem_append_left _ hx)
    obtain ⟨b₂,hv₂,h₂⟩ := h₁.exec (hvalid c (by simp)) (hfits c (by simp))
    have hoff₁ := h₁.off
    have hoff₂ := h₂.off
    rw [List.length_append,← hoff₁] at hoff₂
    refine ⟨_,b₁,b₂,hv₁,?_,by omega⟩
    rw [hv₂,hoff₂,Nat.add_sub_cancel_left]

theorem calls_append_ab : ∃ b', (runCalls freshBuffer
    [.write (ofList [97,98]) 2,.colorLine (ofList [97,98,99,10]) 4 1 1]).val = some ([2,26],b') ∧
    b'.contents = [97,98] ++ ([97] ++ hiliColor ++ [98] ++ resetColor ++ [99]) := by
  obtain ⟨⟨b',hv,hc,-⟩,-⟩ := calls_append (.inl freshBuffer_init)
    [.write (ofList [97,98]) 2,.colorLine (ofList [97,98,99,10]) 4 1 1]
    (by simp [Call.Valid]) (by simp [Call.len])
  exact ⟨b',hv,hc⟩

def Buffer.strlen (b : Buffer) : Option Nat := (readBuffer b).map List.length

/-- The assertion of the writers under DEBUG, within the block. -/
structure Terminated (b : Buffer) : Prop where
  lt : b.off < b.cap
  nul : b.buf b.off = 0
  strlen : b.strlen = some b.off

theorem terminated_of {b : Buffer} (hlt : b.off < b.cap) (hnul : b.buf b.off = 0)
    (hno : 0 ∉ b.contents) : Terminated b := by
  refine ⟨hlt,hnul,?_⟩
  rw [Buffer.strlen,readBuffer_of_nul hlt hnul hno,Option.map_some,Buffer.length_contents]

def Call.NulFree (c : Call) : Prop := ∀ i, i < c.len → c.content i ≠ 0

theorem slice_noNul {content : Ptr} {start n len : Nat} (h : ∀ i, i < len → content i ≠ 0)
    (hle : start+n ≤ len) : 0 ∉ slice content start n := by
  intro hmem
  obtain ⟨i,hi,hz⟩ := mem_slice.mp hmem
  exact h _ (by omega) hz

theorem Call.piece_noNul (hvalid : c.Valid) (h : c.NulFree) : 0 ∉ c.piece := by
  cases c with
  | write content len => exact slice_noNul h (by simp [Call.len])
  | line content len =>
    intro hmem
    have hno : 0 ∉ slice content 0 len := slice_noNul h (by simp [Call.len])
    exact hno ((List.takeWhile_sublist _).subset hmem)
  | colorLine content len off1 colorlen =>
    obtain ⟨hle,-⟩ := hvalid
    have hhili : 0 ∉ hiliColor := by decide
    have hreset : 0 ∉ resetColor := by decide
    have hslice : 0 ∉ slice content (off1+colorlen) (len-off1-colorlen) :=
      slice_noNul h (by simp only [Call.len]; omega)
    have hrest : 0 ∉ lineRest content (off1+colorlen) (len-off1-colorlen) :=
      fun hmem => hslice ((List.takeWhile_sublist _).subset hmem)
    have hpre : 0 ∉ slice content 0 off1 := slice_noNul h (by simp only [Call.len]; omega)
    have hpat : 0 ∉ slice content off1 colorlen := slice_noNul h (by simp only [Call.len]; omega)
    simp [Call.piece,hhili,hreset,hrest,hpre,hpat]

theorem Call.exec_overflow (hvalid : c.Valid) (hcap : 0 < b.cap) (hnul : c.NulFree)
    (hfits : ¬ c.Fits) {n : Nat} (hv : (c.exec b).val = some (n,b')) : b'.buf b'.off ≠ 0 := by
  have hno := Call.piece_noNul hvalid hnul
  cases c with
  | write => exact absurd trivial hfits
  | line content len =>
    rw [Call.exec,(writelineBuffer_val content len hcap).2 hfits] at hv
    cases hv
  | colorLine content len off1 colorlen =>
    obtain ⟨b₁,hg,-⟩ := checkGrow_spec (len+sizeofHili+3) hcap
    obtain ⟨i,hi⟩ := exists_textRun content (off1+colorlen) (restLimit len off1 colorlen)
    have he := recordText_piece_eq hvalid
    have hlen := hi.length_recordText
    rw [Call.exec,writelineColorBuffer_val hg hi] at hv
    rw [he] at hv hlen
    by_cases hsmall : i < 2^31
    · rw [if_pos hsmall,Option.some.injEq,Prod.mk.injEq] at hv
      obtain ⟨-,rfl⟩ := hv
      have hrest : (Call.colorLine content len off1 colorlen).rest.length = i := by
        have hlim : restLimit len off1 colorlen = len-off1-colorlen := by
          obtain ⟨hle,hlt⟩ := hvalid
          rw [restLimit,subSize_of_le (b := off1) (by omega) hlt,
            subSize_of_le (by omega) (by omega)]
        rw [← hi.length_eq,hlim]
        rfl
      have hlarge : 2^32 ≤ (Call.colorLine content len off1 colorlen).piece.length := by
        by_contra hlt
        exact hfits ⟨by omega,by omega⟩
      have hwrap : u32 (u32 (off1+19+colorlen+4)+i) <
          (Call.colorLine content len off1 colorlen).piece.length :=
        Nat.lt_of_lt_of_le (u32_lt _) hlarge
      simp only
      rw [put_at hwrap]
      intro hz
      exact hno (hz ▸ List.getElem_mem hwrap)
    · rw [if_neg hsmall] at hv
      cases hv

theorem runCalls_snoc (b : Buffer) (cs : List Call) (c : Call) :
    (runCalls b (cs ++ [c])).val = (runCalls b cs).val.bind fun x =>
      (c.exec x.2).val.map fun y => (x.1 ++ [y.1],y.2) := by
  induction cs generalizing b with
  | nil =>
    simp only [List.nil_append,runCalls,Run.val_bind,Run.val_pure,Option.bind_some]
    cases (c.exec b).val <;> rfl
  | cons a cs ih =>
    simp only [List.cons_append,runCalls,Run.val_bind,ih,Run.val_pure]
    cases (a.exec b).val with
    | none => rfl
    | some x =>
      simp only [Option.bind_some]
      cases (runCalls x.2 cs).val with
      | none => rfl
      | some y =>
        simp only [Option.bind_some]
        cases (c.exec y.2).val <;> rfl

theorem exists_first_overflow {calls : List Call} (h : ¬ ∀ c, c ∈ calls → c.Fits) :
    ∃ cs c cs', calls = cs ++ c :: cs' ∧ (∀ x, x ∈ cs → x.Fits) ∧ ¬ c.Fits := by
  induction calls with
  | nil => exact absurd (by simp) h
  | cons c calls ih =>
    by_cases hc : c.Fits
    · have hrest : ¬ ∀ x, x ∈ calls → x.Fits := fun hall =>
        h (List.forall_mem_cons.mpr ⟨hc,hall⟩)
      obtain ⟨cs,c',cs',rfl,hcs,hc'⟩ := ih hrest
      exact ⟨c :: cs,c',cs',rfl,List.forall_mem_cons.mpr ⟨hc,hcs⟩,hc'⟩
    · exact ⟨[],c,calls,rfl,by simp,hc⟩

/-- Every call leaves a terminated string exactly when the integers of the writers
hold all lengths and no call fills the block to its last byte. -/
theorem terminated_iff {b₀ b : Buffer} (hb : (initBuffer b₀).val = some b) (calls : List Call)
    (hvalid : ∀ c, c ∈ calls → c.Valid) (hnul : ∀ c, c ∈ calls → c.NulFree) :
    (∀ cs, cs <+: calls → ∃ ns b', (runCalls b cs).val = some (ns,b') ∧ Terminated b') ↔
      (∀ c, c ∈ calls → c.Fits) ∧
        ∀ cs, cs <+: calls → ¬ LeastCap (requests 0 cs) (cs.flatMap Call.piece).length := by
  have he := (initBuffer_empty hb).written
  constructor
  · intro h
    have hfits : ∀ c, c ∈ calls → c.Fits := by
      by_contra hno
      obtain ⟨cs,c,cs',rfl,hcs,hc⟩ := exists_first_overflow hno
      obtain ⟨b₁,hv₁,h₁⟩ := he.run (fun x hx => hvalid x (List.mem_append_left _ hx)) hcs
      obtain ⟨ns,b',hv,hterm⟩ := h (cs ++ [c]) ⟨cs',by simp⟩
      rw [runCalls_snoc,hv₁,Option.bind_some,Option.map_eq_some_iff] at hv
      obtain ⟨⟨n,b₂⟩,hv₂,heq⟩ := hv
      obtain ⟨-,rfl⟩ := Prod.mk.inj heq
      exact Call.exec_overflow (hvalid c (by simp)) h₁.cap_pos (hnul c (by simp)) hc hv₂ hterm.nul
    refine ⟨hfits,fun cs hcs hcap => ?_⟩
    obtain ⟨b₁,hv₁,h₁⟩ := he.run (fun x hx => hvalid x (hcs.subset hx))
      fun x hx => hfits x (hcs.subset hx)
    obtain ⟨ns,b',hv,hterm⟩ := h cs hcs
    rw [hv₁,Option.some.injEq,Prod.mk.injEq] at hv
    obtain ⟨-,rfl⟩ := hv
    have hlt := hterm.lt
    have hoff := h₁.off
    have heq := h₁.cap.eq hcap
    rw [List.nil_append] at hoff
    omega
  · rintro ⟨hfits,hcap⟩ cs hcs
    obtain ⟨b₁,hv₁,h₁⟩ := he.run (fun x hx => hvalid x (hcs.subset hx))
      fun x hx => hfits x (hcs.subset hx)
    have hoff := h₁.off
    have hle := h₁.fits
    rw [List.nil_append] at hoff
    have hne : b₁.off ≠ b₁.cap := by
      intro heq
      refine hcap cs hcs ?_
      rw [← hoff,heq]
      exact h₁.cap
    have hlt : b₁.off < b₁.cap := by omega
    refine ⟨_,b₁,hv₁,terminated_of hlt (h₁.tail _ (Nat.le_refl _) hlt) ?_⟩
    rw [h₁.contents,List.nil_append,List.mem_flatMap]
    rintro ⟨c,hc,hz⟩
    exact Call.piece_noNul (hvalid c (hcs.subset hc)) (hnul c (hcs.subset hc)) hz

theorem terminated_ab : ∃ ns b', (runCalls freshBuffer [.write (ofList [97,98]) 2]).val =
    some (ns,b') ∧ Terminated b' := by
  refine (terminated_iff freshBuffer_init [.write (ofList [97,98]) 2] (by simp [Call.Valid])
    ?_).mpr ⟨by simp [Call.Fits],fun cs hcs hcap => ?_⟩ _ (List.prefix_refl _)
  · simp only [List.mem_singleton,forall_eq]
    intro i hi
    change i < 2 at hi
    obtain rfl | rfl : i = 0 ∨ i = 1 := by omega
    all_goals decide
  · obtain ⟨-,k,hk,-⟩ := hcap
    have hpos : 0 < 2^k := Nat.two_pow_pos k
    obtain ⟨cs',happ⟩ := hcs
    have hlen := congrArg (fun l => (l.flatMap Call.piece).length) happ
    simp only [List.flatMap_append,List.length_append,List.flatMap_cons,List.flatMap_nil,
      Call.piece,List.append_nil,length_slice] at hlen
    rw [hk,defaultSize] at hlen
    omega

theorem block_filled : ¬ ∀ cs, cs <+: [Call.write (fun _ => 97) 4096] → ∃ ns b',
    (runCalls freshBuffer cs).val = some (ns,b') ∧ Terminated b' := by
  intro h
  obtain ⟨ns,b',hv,hterm⟩ := h _ (List.prefix_refl _)
  obtain ⟨b₁,hv₁,h₁⟩ : ∃ b₁, (runCalls freshBuffer [.write (fun _ => 97) 4096]).val =
      some (_,b₁) ∧ Written _ _ b₁ := (initBuffer_empty freshBuffer_init).written.run
    (by simp [Call.Valid]) (by simp [Call.Fits])
  rw [hv₁,Option.some.injEq,Prod.mk.injEq] at hv
  obtain ⟨-,rfl⟩ := hv
  have hcap : b₁.cap = 4096 := h₁.cap.eq ⟨by simp [requests,Call.room],0,rfl,by omega⟩
  have hoff := h₁.off
  have hlt := hterm.lt
  simp [Call.piece] at hoff
  omega

end SSearcher
