import Mathlib.Data.List.TakeWhile
import SSearcher.Records
set_option autoImplicit false

namespace SSearcher
open Runs Memory Matching

/-- Behind `l` more bytes the buffer still ends inside its block, in zeros. -/
structure Entered (b : Buffer) (l : List UInt8) (b' : Buffer) : Prop where
  contents : b'.contents = b.contents ++ l
  tail : b.TailZero → b'.TailZero
  fits : b.off ≤ b.cap → b'.off ≤ b'.cap

theorem Entered.refl (b : Buffer) : Entered b [] b := ⟨by simp,id,id⟩

theorem Entered.trans {b b' b'' : Buffer} {l l' : List UInt8} (h : Entered b l b')
    (h' : Entered b' l' b'') : Entered b (l ++ l') b'' :=
  ⟨by rw [h'.contents,h.contents,List.append_assoc],fun ht => h'.tail (h.tail ht),
    fun hf => h'.fits (h.fits hf)⟩

theorem Appended.entered {b b' : Buffer} {room : Nat} {l : List UInt8}
    (h : Appended b room l b') (hroom : l.length ≤ room) : Entered b l b' := by
  refine ⟨h.contents,h.tail,fun _ => ?_⟩
  have := h.cap.room
  rw [h.off]
  omega

theorem length_recordText_col {fb : Ptr} {pos m : Nat} (h : column fb pos + m ≤ 1024) :
    (recordText (lineAt fb pos) 1024 (column fb pos) m).length ≤ 1047 := by
  obtain ⟨i,hi⟩ := exists_textRun fb (pos+m) (1024-column fb pos - m)
  have hle := hi.le
  have hlen := hi.length_eq
  simp only [recordText_eq h,restOfLine,List.length_append,length_slice,length_hiliColor,
    length_resetColor]
  omega

namespace Scan
variable {sc : Scan} {s s' f : ScanLoop} {r : KmpRet}

def entry (sc : Scan) (x : Nat × Nat) : List UInt8 := recordEntry sc.opt sc.fb x.1 x.2

/-- A match that starts a record within the first 1024 bytes of its line. -/
structure Plain (sc : Scan) (x : Nat × Nat) : Prop where
  linum : x.2 ≠ 0
  col : column sc.fb x.1 + sc.patlen ≤ 1024

theorem report_enters (hs : sc.Inv s) (hp : sc.Plain (matchAt s r,r.linum)) :
    ∃ st b', (workerWritebuffer sc.opt s.statics s.buffer sc.fb (matchAt s r) r.linum
      s.lastlinum).val = some (st,b') ∧ Entered s.buffer (sc.entry (matchAt s r,r.linum)) b' := by
  have hlen := length_recordText_col hp.col
  have hrest : (lineRest (lineAt sc.fb (matchAt s r)) (column sc.fb (matchAt s r) + sc.patlen)
      (restLimit 1024 (column sc.fb (matchAt s r)) sc.patlen)).length < 2^31 := by
    simp only [recordText,List.length_append] at hlen
    omega
  have hne : r.linum ≠ s.lastlinum := hs.lastlinum ▸ hp.linum
  obtain ⟨nll,b₁,b',hv,ha₁,ha'⟩ := workerWritebuffer_appends hne hs.cap hrest
    (Nat.lt_of_le_of_lt hlen (by decide))
  exact ⟨_,b',hv,(ha₁.entered (Nat.le_refl _)).trans (ha'.entered hlen)⟩

theorem run_entered {fuel : Nat} (hs : sc.Inv s)
    (hp : ∀ x, x ∈ reports (sc.run fuel s).log → sc.Plain x)
    (hf : (sc.run fuel s).val = some f) :
    Entered s.buffer ((reports (sc.run fuel s).log).flatMap sc.entry) f.buffer := by
  induction fuel generalizing s with
  | zero => cases hf
  | succ fuel ih =>
    rcases reports_run_cases sc fuel s with ⟨h,hno⟩ | ⟨r,hit,⟨h,hv⟩ | ⟨s',hv,h⟩⟩
    · rw [h]
      cases hv : (sc.step s).val with
      | none =>
        rw [run_eq,Run.loop_of_none fuel hv] at hf
        cases hf
      | some x =>
        rcases step_cases hv with ⟨r,-,-,rfl⟩ | ⟨r,_,_,hit,-⟩
        · rw [run_eq,Run.loop_of_inr fuel hv] at hf
          cases hf
          exact .refl _
        · exact (hno r hit).elim
    · rw [run_eq,Run.loop_of_none fuel hv] at hf
      cases hf
    · rw [h] at hp ⊢
      obtain ⟨hx,hp⟩ := List.forall_mem_cons.mp hp
      obtain ⟨st,b',hw,he⟩ := report_enters hs hx
      have hbuf : s'.buffer = b' := by
        rw [step_of_hit hit,hw,Option.map_some,Option.some.injEq] at hv
        cases hv
        rfl
      rw [run_eq,Run.loop_of_inl fuel hv] at hf
      rw [List.flatMap_cons]
      exact (hbuf ▸ he).trans (ih (inv_step s s' hs hv) hp hf)

end Scan

theorem decimal_noNul (n : Nat) : 0 ∉ decimal n := by
  intro h
  obtain ⟨c,hc,hzero⟩ := List.mem_map.mp h
  have hdigit := Nat.isDigit_of_mem_toDigits (by decide) (by decide) hc
  simp only [Char.isDigit,Bool.and_eq_true,decide_eq_true_eq,ge_iff_le,UInt32.le_iff_toNat_le]
    at hdigit
  have hlow : 48 ≤ c.toNat := hdigit.1
  have hhigh : c.toNat ≤ 57 := hdigit.2
  have hmod := congrArg UInt8.toNat hzero
  simp only [UInt8.toNat_ofNat',UInt8.toNat_zero] at hmod
  omega

theorem linumFormat_noNul (n : Nat) : 0 ∉ linumFormat n := by
  simp only [linumFormat,linumColor,resetColor,newline,List.mem_append,decimal_noNul,or_false]
  decide

theorem lineRest_noNul (content : Ptr) (start limit : Nat) : 0 ∉ lineRest content start limit := by
  intro h
  have := List.mem_takeWhile_imp h
  simp [isText] at this

def NoNul (sc : Scan) (pos : Nat) : Prop :=
  ∀ i, lineStart sc.fb pos ≤ i → i < pos+sc.patlen → sc.fb i ≠ 0

theorem entry_noNul {sc : Scan} {x : Nat × Nat} (h : sc.Plain x) :
    0 ∉ sc.entry x ↔ NoNul sc x.1 := by
  have hadd := lineStart_add_column sc.fb x.1
  have hhili : 0 ∉ hiliColor := by decide
  have hreset : 0 ∉ resetColor := by decide
  have hcol : column sc.fb x.1 + sc.opt.searchPatlen ≤ 1024 := h.col
  simp only [Scan.entry,recordEntry,recordText_eq hcol,restOfLine,List.mem_append,
    linumFormat_noNul,hhili,hreset,lineRest_noNul,or_false,false_or,mem_slice,not_or,not_exists,
    not_and]
  constructor
  · rintro ⟨hline,hmatch⟩ i hi hlt hz
    rcases Nat.lt_or_ge i x.1 with hx | hx
    · exact hline (i-lineStart sc.fb x.1) (by omega) (by rwa [Nat.add_sub_cancel' hi])
    · refine hmatch (i-x.1) ?_ (by rwa [Nat.add_sub_cancel' hx])
      change i < x.1+sc.opt.searchPatlen at hlt
      omega
  · intro hno
    have hle : lineStart sc.fb x.1 ≤ x.1 := by omega
    refine ⟨fun i hi hz => hno _ (Nat.le_add_right _ i) ?_ hz,fun i hi hz => hno _ ?_ ?_ hz⟩
    · change _ < x.1+sc.opt.searchPatlen
      omega
    · omega
    · change _ < x.1+sc.opt.searchPatlen
      omega

def printed (b : Buffer) : List UInt8 := (slice b.buf 0 b.cap).takeWhile (· ≠ 0)

theorem contents_prefix_printed {b : Buffer} (h : b.off ≤ b.cap) :
    b.contents <+: printed b ↔ 0 ∉ b.contents := by
  constructor
  · intro hp hmem
    have := List.mem_takeWhile_imp (hp.subset hmem)
    simp at this
  · intro hno
    rw [printed,slice_cap h,takeWhile_noNul hno]
    exact List.prefix_append _ _

/-- All that was written is printed; in other words no NUL lies below `off`. -/
def Whole (b : Buffer) : Prop := b.contents <+: printed b ∧ 0 ∉ b.contents

theorem plain_of_small {sc : Scan} {s : ScanLoop} (hs : sc.SmallInv s) (hsmall : sc.size < 2^31)
    {fuel : Nat} (hcol : ∀ x, x ∈ reports (sc.run fuel s).log →
      column sc.fb x.1 + sc.patlen ≤ 1024) :
    ∀ x, x ∈ reports (sc.run fuel s).log → sc.Plain x :=
  fun x hx => ⟨reports_linum_pos hs hsmall fuel x hx,hcol x hx⟩

/-- What a worker prints of a file holds all it has written for it exactly when no
NUL stands in a line before the end of a reported match. -/
theorem printed_whole_iff (sc : Scan) (st : Statics) {b₀ b : Buffer}
    (hb : (initBuffer b₀).val = some b) {fuel : Nat} {f : ScanLoop}
    (hf : (sc.run fuel (scanInit st b)).val = some f)
    (hcol : ∀ x, x ∈ reports (sc.run fuel (scanInit st b)).log →
      column sc.fb x.1 + sc.patlen ≤ 1024) :
    ((∀ x, x ∈ reports (sc.run fuel (scanInit st b)).log → x.2 ≠ 0) → (Whole f.buffer ↔
      ∀ x, x ∈ reports (sc.run fuel (scanInit st b)).log → NoNul sc x.1)) ∧
    (sc.size < 2^31 → (Whole f.buffer ↔
      ∀ x, x ∈ reports (sc.run fuel (scanInit st b)).log → NoNul sc x.1)) := by
  have he := initBuffer_empty hb
  have hinv : sc.Inv (scanInit st b) := Scan.inv_init st he.cap_pos
  have key : (∀ x, x ∈ reports (sc.run fuel (scanInit st b)).log → sc.Plain x) →
      (Whole f.buffer ↔ ∀ x, x ∈ reports (sc.run fuel (scanInit st b)).log → NoNul sc x.1) := by
    intro hp
    have hent := Scan.run_entered hinv hp hf
    have hfits := hent.fits (by change b.off ≤ b.cap; rw [he.off]; exact Nat.zero_le _)
    rw [Whole,contents_prefix_printed hfits,and_self_iff,hent.contents]
    change 0 ∉ b.contents ++ _ ↔ _
    rw [he.contents,List.nil_append,List.mem_flatMap]
    simp only [not_exists,not_and]
    exact forall₂_congr fun x hx => entry_noNul (hp x hx)
  constructor
  · intro hlinum
    exact key fun x hx => ⟨hlinum x hx,hcol x hx⟩
  · intro hsmall
    exact key (plain_of_small (Scan.smallInv_init st he.cap_pos) hsmall hcol)

theorem printed_whole_aab : ∃ f, (scanAab.run 7 (scanInit ⟨0,0⟩ freshBuffer)).val = some f ∧
    Whole f.buffer := by
  have hreports : reports (scanAab.run 7 (scanInit ⟨0,0⟩ freshBuffer)).log = [(1,1),(3,2)] := by
    decide +kernel
  have hinit : scanAab.SmallInv (scanInit ⟨0,0⟩ freshBuffer) := Scan.smallInv_init _ (by decide)
  obtain ⟨f,hf⟩ := Scan.run_total hinit (by decide) (by decide : scanAab.size < 7)
  refine ⟨f,hf,((printed_whole_iff scanAab ⟨0,0⟩ freshBuffer_init hf ?_).2 (by decide)).mpr ?_⟩
  · rw [hreports]
    decide
  · rw [hreports]
    simp only [List.mem_cons,List.not_mem_nil,or_false,forall_eq_or_imp,forall_eq]
    refine ⟨fun i _ hi => ?_,fun i _ hi => ?_⟩
    · change i < 2 at hi
      obtain rfl | rfl : i = 0 ∨ i = 1 := by omega
      all_goals decide
    · change i < 4 at hi
      obtain rfl | rfl | rfl | rfl : i = 0 ∨ i = 1 ∨ i = 2 ∨ i = 3 := by omega
      all_goals decide

def scanNul : Scan := .of [97] [0,97,10] false Scan.length_a (by decide)

theorem match_not_printed : ∃ f, (scanNul.run 4 (scanInit ⟨0,0⟩ freshBuffer)).val = some f ∧
    ¬ Whole f.buffer := by
  have hreports : reports (scanNul.run 4 (scanInit ⟨0,0⟩ freshBuffer)).log = [(1,1)] := by
    decide +kernel
  have hinit : scanNul.SmallInv (scanInit ⟨0,0⟩ freshBuffer) := Scan.smallInv_init _ (by decide)
  obtain ⟨f,hf⟩ := Scan.run_total hinit (by decide) (by decide : scanNul.size < 4)
  have hplain : scanNul.Plain (1,1) := ⟨by decide,by decide⟩
  refine ⟨f,hf,fun h => ?_⟩
  have hent := Scan.run_entered hinit.toInv (by
    rw [hreports]
    simpa using hplain) hf
  have hno := h.2
  rw [hent.contents,hreports] at hno
  have hentry : 0 ∉ scanNul.entry (1,1) := fun hz => hno (by simp [hz])
  exact (entry_noNul hplain).mp hentry 0 (by decide) (by decide) (by decide)

end SSearcher
