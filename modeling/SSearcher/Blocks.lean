import SSearcher.Calls
import SSearcher.Contents
import SSearcher.System
set_option autoImplicit false

namespace SSearcher
open Runs Memory

theorem requests_append (off : Nat) (cs cs' : List Call) : requests off (cs ++ cs') =
    requests off cs ++ requests (off+(cs.flatMap Call.piece).length) cs' := by
  induction cs generalizing off with
  | nil => rfl
  | cons c cs ih =>
    rw [List.cons_append,requests,ih,requests,List.flatMap_cons,List.length_append,Nat.add_assoc]
    rfl

theorem Written.readBuffer_iff {l : List UInt8} {needs : List Nat} {b : Buffer}
    (h : Written l needs b) : readBuffer b = some l ↔ 0 ∉ l ∧ ¬ LeastCap needs l.length := by
  have hoff := h.off
  have hfits := h.fits
  have hblock := slice_cap h.fits
  rw [h.contents] at hblock
  constructor
  · intro hread
    rw [readBuffer,Option.ite_none_right_eq_some,Option.some.injEq] at hread
    obtain ⟨hmem,htake⟩ := hread
    have hno : 0 ∉ l := by
      intro hz
      rw [← htake] at hz
      have := List.mem_takeWhile_imp hz
      simp at this
    refine ⟨hno,fun hcap => ?_⟩
    have heq := h.cap.eq hcap
    have hzero : b.cap-b.off = 0 := by omega
    rw [hblock,hzero,slice_zero,List.append_nil] at hmem
    exact hno hmem
  · rintro ⟨hno,hcap⟩
    have hne : b.off ≠ b.cap := by
      intro heq
      rw [← hoff,heq] at hcap
      exact hcap h.cap
    have hlt : b.off < b.cap := by omega
    rw [← h.contents] at hno ⊢
    exact readBuffer_of_nul hlt (h.tail _ (Nat.le_refl _) hlt) hno

namespace Scan
variable (sc : Scan)

def calls (x : Nat × Nat) : List Call :=
  [.write (ofList (linumFormat x.2)) (linumFormat x.2).length,
    .colorLine (lineAt sc.fb x.1) 1024 (column sc.fb x.1) sc.patlen]

def pieces (l : List (Nat × Nat)) : List UInt8 := (l.flatMap sc.calls).flatMap Call.piece

def needs (l : List (Nat × Nat)) : List Nat := requests 0 (l.flatMap sc.calls)

/-- The match loop of a worker that has just started. -/
def alone : Prog ScanLoop := sc.run (sc.size+1) (scanInit ⟨0,0⟩ freshBuffer)

def found : List (Nat × Nat) := reports sc.alone.log

def written : List UInt8 := sc.alone.val.elim [] fun s => s.buffer.contents

def block (filename : List UInt8) : List UInt8 := nameLine filename ++
  if sc.opt.listMatchingFiles then [] else sc.written ++ [newline]

def prints (filename : List UInt8) : Option (List UInt8) := sc.alone.val.bind fun s =>
  if s.buffer.off = 0 then some [] else printResult sc.opt ⟨0,filename,0⟩ s.buffer

/-- A file of less than 2^30 bytes with each match in the first 1024 bytes of its line. -/
structure Short : Prop where
  size : sc.size < 2^30
  columns : ∀ x, x ∈ sc.found → column sc.fb x.1 + sc.patlen ≤ 1024

/-- No NUL stands in a line before the end of a match, and the records do not fill the
block to its last byte. -/
structure Printable : Prop where
  noNul : ∀ x, x ∈ sc.found → NoNul sc x.1
  room : ¬ LeastCap (sc.needs sc.found) (sc.pieces sc.found).length

variable {sc} {x : Nat × Nat} {l : List (Nat × Nat)} {s t f : ScanLoop}

theorem needs_snoc : sc.needs (l ++ [x]) =
    sc.needs l ++ requests (sc.pieces l).length (sc.calls x) := by
  rw [needs,List.flatMap_append,requests_append,List.flatMap_singleton,Nat.zero_add]
  rfl

theorem pieces_snoc : sc.pieces (l ++ [x]) =
    sc.pieces l ++ (sc.calls x).flatMap Call.piece := by
  rw [pieces,List.flatMap_append,List.flatMap_append,List.flatMap_singleton]
  rfl

theorem calls_valid (h : sc.Plain x) : ∀ c, c ∈ sc.calls x → c.Valid := by
  simp only [calls,List.mem_cons,List.not_mem_nil,or_false,forall_eq_or_imp,forall_eq]
  exact ⟨trivial,h.col,by decide⟩

theorem calls_fits (h : sc.Plain x) : ∀ c, c ∈ sc.calls x → c.Fits := by
  have hvalid := calls_valid h
  simp only [calls,List.mem_cons,List.not_mem_nil,or_false,forall_eq_or_imp,forall_eq] at hvalid ⊢
  exact ⟨trivial,Call.fits_of_len hvalid.2 (by simp [Call.len])⟩

theorem entry_eq_pieces (h : sc.Plain x) : sc.entry x = (sc.calls x).flatMap Call.piece := by
  have hrec : recordText (lineAt sc.fb x.1) 1024 (column sc.fb x.1) sc.patlen = _ :=
    recordText_piece_eq ⟨h.col,by decide⟩
  rw [entry,recordEntry,calls,List.flatMap_cons,List.flatMap_singleton,Call.piece,
    slice_ofList _ rfl]
  exact congrArg (linumFormat x.2 ++ ·) hrec

theorem pieces_eq (h : ∀ x, x ∈ l → sc.Plain x) : sc.pieces l = l.flatMap sc.entry := by
  rw [pieces,List.flatMap_assoc]
  exact List.flatMap_congr fun x hx => (entry_eq_pieces (h x hx)).symm

end Scan

theorem workerWritebuffer_calls (opt : Options) (st : Statics) {b : Buffer} (fb : Ptr)
    (pos : Nat) {linum lastlinum : Nat} (hne : linum ≠ lastlinum) (hcap : 0 < b.cap) :
    (workerWritebuffer opt st b fb pos linum lastlinum).val.map Prod.snd =
      (runCalls b [.write (ofList (linumFormat linum)) (linumFormat linum).length,
        .colorLine (lineAt fb pos) 1024 (column fb pos) opt.searchPatlen]).val.map Prod.snd := by
  obtain ⟨b₁,hv,-⟩ := writeBuffer_spec (ofList (linumFormat linum)) (linumFormat linum).length hcap
  have hf : (writefBuffer b linumFormat linum).val = some ((linumFormat linum).length,b₁) := by
    simp [writefBuffer,hv]
  rw [workerWritebuffer_record hne hf]
  simp only [runCalls,Call.exec,Run.val_bind,hv,Option.bind_some]
  cases (writelineColorBuffer b₁ (lineAt fb pos) 1024 (column fb pos) opt.searchPatlen).val <;> rfl

namespace Scan
variable {sc : Scan} {x : Nat × Nat} {l : List (Nat × Nat)} {s t f : ScanLoop} {r : KmpRet}

theorem scanMatch_congr (sc : Scan) (hstart : s.startpos = t.startpos) (hlinum : s.linum = t.linum) :
    scanMatch sc.kmp sc.fb sc.size s = scanMatch sc.kmp sc.fb sc.size t := by
  rw [scanMatch,scanMatch,hstart,hlinum]

theorem Hit.congr (h : sc.Hit s r) (hstart : s.startpos = t.startpos)
    (hlinum : s.linum = t.linum) : sc.Hit t r :=
  ⟨scanMatch_congr sc hstart hlinum ▸ h.val,h.found⟩

theorem reports_congr (hsmall : sc.size < 2^31) (hs : sc.SmallInv s) (ht : sc.SmallInv t)
    (hstart : s.startpos = t.startpos) (hlinum : s.linum = t.linum) (fuel : Nat) :
    reports (sc.run fuel s).log = reports (sc.run fuel t).log := by
  induction fuel generalizing s t with
  | zero => rfl
  | succ fuel ih =>
    rcases reports_run_cases sc fuel s with ⟨hl,hno⟩ | ⟨r,hit,⟨-,hv⟩ | ⟨s',hv,hl⟩⟩
    · rcases reports_run_cases sc fuel t with ⟨hl',-⟩ | ⟨r,hit,-⟩
      · rw [hl,hl']
      · exact (hno r (hit.congr hstart.symm hlinum.symm)).elim
    · obtain ⟨y,hy,-⟩ := step_total hs hsmall
      rw [hv] at hy
      cases hy
    · rcases reports_run_cases sc fuel t with ⟨-,hno'⟩ | ⟨r',hit',⟨-,hv'⟩ | ⟨t',hv',hl'⟩⟩
      · exact (hno' r (hit.congr hstart hlinum)).elim
      · obtain ⟨y,hy,-⟩ := step_total ht hsmall
        rw [hv'] at hy
        cases hy
      · have hr : r = r' := Option.some.inj ((hit.congr hstart hlinum).val.symm.trans hit'.val)
        subst hr
        have hat : matchAt s r = matchAt t r := by rw [matchAt,matchAt,hstart]
        have hs' := smallInv_step hsmall s s' hs hv
        have ht' := smallInv_step hsmall t t' ht hv'
        obtain ⟨hsp,hsl⟩ := hit.head hs.startpos (by omega) hv
        obtain ⟨htp,htl⟩ := hit'.head ht.startpos (by omega) hv'
        rw [hl,hl',hat,ih hs' ht' (by rw [hsp,htp,hat]) (by rw [hsl,htl])]

/-- A head of the match loop behind the reports `l`. -/
structure At (sc : Scan) (l : List (Nat × Nat)) (s : ScanLoop) : Prop where
  inv : sc.SmallInv s
  written : Written (sc.pieces l) (sc.needs l) s.buffer
  rest : ∃ fuel, sc.size-s.startpos < fuel ∧ sc.found = l ++ reports (sc.run fuel s).log

theorem Short.plain (h : sc.Short) : ∀ x, x ∈ sc.found → sc.Plain x := by
  have hsize := h.size
  exact plain_of_small (smallInv_init _ (by decide)) (by omega) h.columns

theorem at_init (h : sc.Short) (st : Statics) {b : Buffer} (hb : b.Empty) :
    sc.At [] (scanInit st b) := by
  have hsize := h.size
  have hinv : sc.SmallInv (scanInit st b) := smallInv_init st hb.cap_pos
  refine ⟨hinv,hb.written,sc.size+1,Nat.lt_succ_self _,?_⟩
  have hfresh : sc.SmallInv (scanInit ⟨0,0⟩ freshBuffer) := smallInv_init _ (by decide)
  have hcongr := reports_congr (by omega) hfresh hinv rfl rfl (sc.size+1)
  rw [found,alone,hcongr,List.nil_append]

/-- The other worker may change the statics. -/
theorem At.statics (h : sc.Short) (hat : sc.At l s) (st : Statics) :
    sc.At l { s with statics := st } := by
  have hsize := h.size
  have hinv : sc.SmallInv { s with statics := st } :=
    ⟨⟨hat.inv.startpos,hat.inv.lastlinum,hat.inv.cap⟩,hat.inv.linum_pos,hat.inv.linum_le⟩
  obtain ⟨fuel,hfuel,hfound⟩ := hat.rest
  refine ⟨hinv,hat.written,fuel,hfuel,?_⟩
  rw [hfound,reports_congr (by omega) hat.inv hinv rfl rfl]

theorem At.next (h : sc.Short) (hat : sc.At l s) (hv : (sc.step s).val = some (.inl t)) :
    ∃ x, sc.At (l ++ [x]) t := by
  have hsize := h.size
  obtain ⟨fuel,hfuel,hfound⟩ := hat.rest
  obtain ⟨n,rfl⟩ : ∃ n, fuel = n+1 := ⟨fuel-1,by omega⟩
  rcases step_cases hv with ⟨_,-,-,he⟩ | ⟨r,st,b,hit,hw,he⟩
  · cases he
  obtain ⟨y,hy,hnext⟩ := step_total hat.inv (by omega)
  obtain rfl : Sum.inl t = y := Option.some.inj (hv.symm.trans hy)
  obtain ⟨hinv,hlt⟩ := hnext t rfl
  rcases reports_run_cases sc n s with ⟨-,hno⟩ | ⟨r',hit',⟨-,hv'⟩ | ⟨t',hv',hl⟩⟩
  · exact (hno r hit).elim
  · rw [hv] at hv'
    cases hv'
  obtain rfl : r = r' := Option.some.inj (hit.val.symm.trans hit'.val)
  obtain rfl : t = t' := Sum.inl.inj (Option.some.inj (hv.symm.trans hv'))
  rw [hl] at hfound
  have hplain : sc.Plain (matchAt s r,r.linum) := h.plain _ (by rw [hfound]; simp)
  have hne : r.linum ≠ s.lastlinum := hat.inv.lastlinum ▸ hplain.linum
  obtain ⟨b',hrun,hwritten⟩ := hat.written.run (calls_valid hplain) (calls_fits hplain)
  have hb : b = b' := by
    have hcalls := workerWritebuffer_calls sc.opt s.statics sc.fb (matchAt s r) hne hat.inv.cap
    rw [hw] at hcalls
    change _ = (runCalls s.buffer (sc.calls (matchAt s r,r.linum))).val.map Prod.snd at hcalls
    rw [hrun] at hcalls
    exact Option.some.inj hcalls
  cases he
  refine ⟨(matchAt s r,r.linum),hinv,?_,n,by omega,by rw [hfound]; simp⟩
  rw [pieces_snoc,needs_snoc]
  exact hb ▸ hwritten

theorem At.ends (hat : sc.At l s) (hv : (sc.step s).val = some (.inr t)) :
    l = sc.found ∧ t.buffer = s.buffer := by
  obtain ⟨fuel,hfuel,hfound⟩ := hat.rest
  obtain ⟨n,rfl⟩ : ∃ n, fuel = n+1 := ⟨fuel-1,by omega⟩
  rcases step_cases hv with ⟨r,hr,hf,he⟩ | ⟨_,_,_,-,-,he⟩
  · cases he
    rcases reports_run_cases sc n s with ⟨hl,-⟩ | ⟨r',hit',-⟩
    · rw [hl,List.append_nil] at hfound
      exact ⟨hfound.symm,rfl⟩
    · obtain rfl : r = r' := Option.some.inj (hr.symm.trans hit'.val)
      rw [hit'.found] at hf
      cases hf
  · cases he

theorem At.run (h : sc.Short) (hat : sc.At l s) {fuel : Nat}
    (hf : (sc.run fuel s).val = some f) :
    Written (sc.pieces sc.found) (sc.needs sc.found) f.buffer := by
  induction fuel generalizing l s with
  | zero => cases hf
  | succ fuel ih =>
    rw [run_eq] at hf
    cases hv : (sc.step s).val with
    | none =>
      rw [Run.loop_of_none fuel hv] at hf
      cases hf
    | some y =>
      cases y with
      | inl t =>
        rw [Run.loop_of_inl fuel hv] at hf
        obtain ⟨x,hat'⟩ := hat.next h hv
        exact ih hat' hf
      | inr t =>
        rw [Run.loop_of_inr fuel hv,Option.some.injEq] at hf
        subst hf
        obtain ⟨hl,hb⟩ := hat.ends hv
        rw [hb,← hl]
        exact hat.written

theorem pieces_eq_nil : sc.pieces l = [] ↔ l = [] := by
  have hheader : ∀ x : Nat × Nat, linumFormat x.2 ≠ [] := fun x => by
    simp [linumFormat,linumColor]
  cases l with
  | nil => exact ⟨fun _ => rfl,fun _ => rfl⟩
  | cons x l =>
    refine ⟨fun h => ?_,fun h => absurd h (List.cons_ne_nil x l)⟩
    rw [pieces,List.flatMap_cons,List.flatMap_append,calls,List.flatMap_cons,Call.piece,
      slice_ofList _ rfl] at h
    exact absurd (List.append_eq_nil_iff.mp (List.append_eq_nil_iff.mp h).1).1 (hheader x)

theorem Short.alone_spec (h : sc.Short) : ∃ f, sc.alone.val = some f ∧
    Written (sc.pieces sc.found) (sc.needs sc.found) f.buffer := by
  have hsize := h.size
  have hinit : sc.SmallInv (scanInit ⟨0,0⟩ freshBuffer) := smallInv_init ⟨0,0⟩ (by decide)
  obtain ⟨f,hf⟩ := run_total hinit (by omega) (Nat.lt_succ_self _)
  exact ⟨f,hf,(at_init h ⟨0,0⟩ (initBuffer_empty freshBuffer_init)).run h hf⟩

theorem Short.written_eq (h : sc.Short) : sc.written = sc.pieces sc.found := by
  obtain ⟨f,hf,hw⟩ := h.alone_spec
  rw [written,hf]
  exact hw.contents

theorem Short.noNul_iff (h : sc.Short) :
    0 ∉ sc.pieces sc.found ↔ ∀ x, x ∈ sc.found → NoNul sc x.1 := by
  rw [pieces_eq h.plain,List.mem_flatMap]
  simp only [not_exists,not_and]
  exact forall₂_congr fun x hx => entry_noNul (h.plain x hx)

/-- The section under outmtx prints the block of the file exactly when the written
bytes are a string of the buffer. -/
theorem Short.printResult_iff (h : sc.Short) {b : Buffer} (fi : FileInfo)
    (hb : Written (sc.pieces sc.found) (sc.needs sc.found) b) :
    printResult sc.opt fi b = some (sc.block fi.filename) ↔
      sc.opt.listMatchingFiles = true ∨ sc.Printable := by
  have hprintable : sc.Printable ↔ readBuffer b = some (sc.pieces sc.found) := by
    rw [hb.readBuffer_iff,h.noNul_iff]
    exact ⟨fun hp => ⟨hp.noNul,hp.room⟩,fun hp => ⟨hp.1,hp.2⟩⟩
  rw [printResult,block,h.written_eq,hprintable]
  cases hlist : sc.opt.listMatchingFiles with
  | true => simp
  | false =>
    simp only [Bool.false_eq_true,if_false,false_or,Option.map_eq_some_iff]
    constructor
    · rintro ⟨s,hs,he⟩
      rw [List.append_assoc] at he
      rw [hs,List.append_cancel_right (List.append_cancel_left he)]
    · intro hs
      exact ⟨_,hs,List.append_assoc _ _ _⟩

end Scan

end SSearcher
