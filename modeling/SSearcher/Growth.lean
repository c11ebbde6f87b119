import SSearcher.Calls
set_option autoImplicit false

namespace SSearcher
open Runs Memory

def Event.isStore : Event → Bool
  | .store .buf _ => true
  | _ => false

/-- How many bytes of the buffer were stored, those that buffer_grow clears among them. -/
def stores (es : List Event) : Nat := es.countP Event.isStore

theorem stores_append (l l' : List Event) : stores (l ++ l') = stores l + stores l' :=
  List.countP_append

theorem stores_eq_zero {es : List Event} (h : ∀ i, .store .buf i ∉ es) : stores es = 0 := by
  refine List.countP_eq_zero.mpr fun e he hstore => ?_
  cases e with
  | store r i =>
    cases r with
    | buf => exact h i he
    | _ => cases hstore
  | _ => cases hstore

theorem stores_bind {α β : Type} {x : Prog α} {a : α} (f : α → Prog β) (hx : x.val = some a) :
    stores (x >>= f).log = stores x.log + stores (f a).log := by
  rw [Run.log_bind_of_val f hx,stores_append]

theorem stores_range (d n : Nat) :
    stores ((List.range n).map fun i => .store .buf (d+i)) = n := by
  rw [stores,List.countP_map]
  exact (List.countP_eq_length.mpr fun _ _ => rfl).trans List.length_range

theorem stores_memcpy {rs : Region} (dst : Ptr) (d : Nat) (src : Ptr) (s n : Nat) :
    stores (memcpy .buf rs dst d src s n).log = n := by
  have hloads : stores ((List.range n).map fun i => Event.load rs (s+i)) = 0 :=
    stores_eq_zero fun i hi => by simp at hi
  rw [log_memcpy,stores_append,hloads,stores_range,Nat.zero_add]

variable {b b₁ : Buffer} {c : Call} {content : Ptr} {len off1 colorlen i room : Nat}

/-- A call that grows the buffer clears less than the capacity it adds, twice. -/
theorem checkGrow_stores (hcap : 0 < b.cap) (hv : (checkGrow b room).val = some b₁) :
    stores (checkGrow b room).log + 2*b.cap ≤ 2*b₁.cap := by
  unfold checkGrow at hv ⊢
  split
  · rename_i hgt
    rw [if_pos hgt] at hv
    obtain ⟨c,hc,hgrown⟩ := growLoop_spec (room+b.off) hcap
    have hstores : stores (bufferGrow b room).log = c-b.off := by
      rw [bufferGrow,stores_bind _ hc,growLoop_log,stores_bind _ (val_memset ..),log_memset,
        stores_range]
      simp [stores]
    have hb₁ : b₁.cap = c := by
      simp only [bufferGrow,Run.val_bind,hc,Option.bind_some,val_memset,Run.val_pure,
        Option.some.injEq] at hv
      rw [← hv]
    obtain ⟨hroom,k,rfl,-⟩ := hgrown
    have hdouble : 2*b.cap ≤ b.cap*2^k := by
      cases k with
      | zero => omega
      | succ k =>
        have hpos := Nat.two_pow_pos k
        rw [Nat.pow_succ,Nat.mul_comm (2^k),← Nat.mul_assoc,Nat.mul_comm b.cap]
        exact Nat.le_mul_of_pos_right _ hpos
    rw [hstores,hb₁]
    omega
  · rename_i hle
    rw [if_neg hle] at hv
    cases hv
    exact Nat.le_of_eq (Nat.zero_add _)

theorem writeBuffer_stores (hg : (checkGrow b len).val = some b₁) :
    stores (writeBuffer b content len).log = stores (checkGrow b len).log + len := by
  rw [writeBuffer,stores_bind _ hg,stores_bind _ (val_memcpy ..),stores_memcpy]
  rfl

theorem writelineBuffer_stores (hg : (checkGrow b len).val = some b₁)
    (hi : (Run.loop (lineStep content len) (len+1) 0).val = some i) :
    stores (writelineBuffer b content len).log = stores (checkGrow b len).log + i := by
  have hloop : stores (Run.loop (lineStep content len) (len+1) 0).log = 0 := by
    refine stores_eq_zero fun x hx => ?_
    obtain ⟨j,-,hj⟩ := Run.loop_log hx
    have honly : Run.Only (fun e => ∃ k, e = .load .content k) (lineStep content len j) := by
      refine .ite (fun _ => .bind (by simp [Run.Only]) fun c _ => .ite (fun _ => ?_)
        fun _ => .pure _ _) fun _ => .pure _ _
      exact .bind (by simp [Run.Only]) fun _ _ => .pure _ _
    obtain ⟨_,hk⟩ := honly _ hj
    cases hk
  rw [writelineBuffer,stores_bind _ hg,stores_bind _ hi,hloop,stores_bind _ (val_memcpy ..),
    stores_memcpy,Nat.zero_add]
  rfl

theorem writelineColorBuffer_stores (hg : (checkGrow b (len+sizeofHili+3)).val = some b₁)
    (hi : TextRun content (off1+colorlen) (restLimit len off1 colorlen) i) (hsmall : i < 2^31) :
    stores (writelineColorBuffer b content len off1 colorlen).log =
      stores (checkGrow b (len+sizeofHili+3)).log +
        (recordText content len off1 colorlen).length := by
  have hloop := restLoop_val hi
  rw [if_pos hsmall] at hloop
  have hno : stores (restLoop content (off1+colorlen) (restLimit len off1 colorlen)).log = 0 := by
    refine stores_eq_zero fun x hx => ?_
    obtain ⟨_,-,-,-,he⟩ := (mem_restLoop_log hi).mp hx
    cases he
  unfold restLimit at hloop hno
  rw [writelineColorBuffer,stores_bind _ hg,hi.length_recordText]
  simp only [stores_bind _ (val_memcpy ..),stores_bind _ hloop,stores_memcpy,hno,Run.log_pure,
    sizeofHili_eq]
  change _ + (off1+(19+(colorlen+(4+(0+(i+0)))))) = _
  omega

theorem Call.exec_log (hvalid : c.Valid) (hfits : c.Fits) (hg : (checkGrow b c.room).val = some b₁)
    {n : Nat} {b' : Buffer} (hv : (c.exec b).val = some (n,b')) :
    stores (c.exec b).log = stores (checkGrow b c.room).log + c.piece.length ∧
      b'.cap = b₁.cap := by
  cases c with
  | write content len =>
    change (checkGrow b len).val = some b₁ at hg
    rw [exec,writeBuffer,Run.val_bind,hg,Option.bind_some] at hv
    cases hv
    exact ⟨by rw [exec,writeBuffer_stores hg,piece,length_slice]; rfl,rfl⟩
  | line content len =>
    obtain ⟨i,hi,htext,hstop⟩ := exists_run (fun x => x != newline) content 0 len
    simp only [Nat.zero_add] at htext hstop
    have hpiece : (Call.line content len).piece = slice content 0 i :=
      takeWhile_slice hi (by simpa using htext) (by simpa using hstop)
    have hloop := lineStep_spec hi htext hstop
    change (checkGrow b len).val = some b₁ at hg
    rw [Fits,hpiece,length_slice] at hfits
    rw [if_pos hfits] at hloop
    rw [exec,writelineBuffer,Run.val_bind,hg,Option.bind_some,Run.val_bind,hloop,
      Option.bind_some] at hv
    cases hv
    exact ⟨by rw [exec,writelineBuffer_stores hg hloop,hpiece,length_slice]; rfl,rfl⟩
  | colorLine content len off1 colorlen =>
    have he := recordText_piece_eq hvalid
    obtain ⟨i,hi⟩ := exists_textRun content (off1+colorlen) (restLimit len off1 colorlen)
    have hlimit : restLimit len off1 colorlen = len-off1-colorlen := by
      obtain ⟨hle,hlen⟩ := hvalid
      rw [restLimit,subSize_of_le (b := off1) (by omega) hlen,subSize_of_le (by omega) (by omega)]
    have hsmall : i < 2^31 := by
      rw [← hi.length_eq,hlimit]
      exact hfits.1
    change (checkGrow b (len+sizeofHili+3)).val = some b₁ at hg
    rw [exec,writelineColorBuffer_val hg hi,if_pos hsmall] at hv
    cases hv
    exact ⟨by rw [exec,writelineColorBuffer_stores hg hi hsmall,he]; rfl,rfl⟩

theorem Call.exec_stores (hvalid : c.Valid) (hcap : 0 < b.cap) (hfits : c.Fits) {n : Nat}
    {b' : Buffer} (hv : (c.exec b).val = some (n,b')) :
    stores (c.exec b).log + 2*b.cap ≤ c.piece.length + 2*b'.cap := by
  obtain ⟨b₁,hg,-⟩ := checkGrow_spec c.room hcap
  have hgrow := checkGrow_stores hcap hg
  obtain ⟨hstores,hb'⟩ := Call.exec_log hvalid hfits hg hv
  omega

theorem runCalls_stores {cs : List Call} {l : List UInt8} {needs : List Nat}
    (h : Written l needs b) (hvalid : ∀ c, c ∈ cs → c.Valid) (hfits : ∀ c, c ∈ cs → c.Fits)
    {ns : List Nat} {b' : Buffer} (hv : (runCalls b cs).val = some (ns,b')) :
    stores (runCalls b cs).log + 2*b.cap ≤ (cs.flatMap Call.piece).length + 2*b'.cap := by
  induction cs generalizing l needs b ns with
  | nil =>
    cases hv
    exact Nat.le_refl _
  | cons c cs ih =>
    obtain ⟨hv₁,hvalid⟩ := List.forall_mem_cons.mp hvalid
    obtain ⟨hf₁,hfits⟩ := List.forall_mem_cons.mp hfits
    obtain ⟨b₁,hval₁,h₁⟩ := h.exec hv₁ hf₁
    have hone := Call.exec_stores hv₁ h.cap_pos hf₁ hval₁
    rw [runCalls,Run.val_bind,hval₁,Option.bind_some] at hv
    obtain ⟨⟨ns',b₂⟩,hrest,heq⟩ := Run.bind_eq_some.mp hv
    cases heq
    have hrest' := ih h₁ hvalid hfits hrest
    rw [runCalls,stores_bind _ hval₁,stores_bind _ hrest,List.flatMap_cons,List.length_append]
    change _ + (_ + 0) + _ ≤ _
    omega

theorem LeastCap.le {needs : List Nat} {cap n : Nat} (h : LeastCap needs cap)
    (hn : ∀ x, x ∈ needs → x ≤ n) : cap ≤ defaultSize + 2*n := by
  obtain ⟨-,k,rfl,hleast⟩ := h
  cases k with
  | zero => omega
  | succ k =>
    obtain ⟨x,hx,hlt⟩ := hleast k (Nat.lt_succ_self k)
    have hle := hn x hx
    rw [Nat.pow_succ,← Nat.mul_assoc]
    omega

/-- However the calls are split, growing stays cheap: if no call needs more than `n` bytes
of the block, all calls from init_buffer on store what they write and at most 4n bytes. -/
theorem stores_amortized {b₀ b : Buffer}
    (hb : (initBuffer b₀).val = some b ∨ (resetBuffer b₀).val = some b) (calls : List Call)
    (hvalid : ∀ c, c ∈ calls → c.Valid) (hlen : ∀ c, c ∈ calls → c.len < 2^31) {n : Nat}
    (hn : ∀ x, x ∈ requests 0 calls → x ≤ n) :
    stores (runCalls b calls).log ≤ (calls.flatMap Call.piece).length + 4*n := by
  have he : b.Empty := hb.elim initBuffer_empty initBuffer_empty
  have hfits : ∀ c, c ∈ calls → c.Fits := fun c hc => Call.fits_of_len (hvalid c hc) (hlen c hc)
  obtain ⟨b',hv,h⟩ := he.written.run hvalid hfits
  have hcost := runCalls_stores he.written hvalid hfits hv
  have hcap := h.cap.le hn
  have hinit : b.cap = defaultSize := he.cap
  omega

theorem stores_amortized_5000 :
    stores (runCalls freshBuffer [.write (fun _ => 97) 5000]).log ≤ 25000 := by
  have hcost := stores_amortized (.inl freshBuffer_init) [.write (fun _ => 97) 5000]
    (by simp [Call.Valid]) (by simp [Call.len]) (n := 5000) (by simp [requests,Call.room])
  simpa [Call.piece] using hcost

end SSearcher
