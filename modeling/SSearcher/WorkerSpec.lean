import SSearcher.MatchSpec
import SSearcher.BufferSpec
import SSearcher.Worker
set_option autoImplicit false

namespace SSearcher
open Runs Memory Matching

def lineStart (fb : Ptr) : Nat → Nat
  | 0 => 0
  | n+1 => if fb n = newline then n+1 else lineStart fb n

structure IsBol (fb : Ptr) (pos bol : Nat) : Prop where
  le : bol ≤ pos
  start : bol = 0 ∨ fb (bol-1) = newline
  line : ∀ i, bol ≤ i → i < pos → fb i ≠ newline

theorem lineStart_isBol (fb : Ptr) (pos : Nat) : IsBol fb pos (lineStart fb pos) := by
  induction pos with
  | zero => exact ⟨by simp [lineStart],.inl rfl,by omega⟩
  | succ n ih =>
    unfold lineStart
    split
    · rename_i hn
      exact ⟨by omega,.inr (by simpa using hn),by omega⟩
    · rename_i hn
      refine ⟨by have := ih.le; omega,ih.start,fun i hi hin => ?_⟩
      rcases Nat.lt_succ_iff_lt_or_eq.mp hin with hin | rfl
      · exact ih.line i hi hin
      · exact hn

theorem IsBol.eq {fb : Ptr} {pos bol bol' : Nat} (h : IsBol fb pos bol)
    (h' : IsBol fb pos bol') : bol = bol' := by
  have key : ∀ {a b : Nat}, IsBol fb pos a → IsBol fb pos b → ¬ a < b := by
    intro a b ha hb hlt
    have hle := hb.le
    rcases hb.start with h0 | hn
    · omega
    · exact ha.line (b-1) (by omega) (by omega) hn
  have := key h h'
  have := key h' h
  omega

theorem bolLoop_val (fb : Ptr) (mid : Nat) {n : Nat} (hn : mid < n) :
    (Run.loop (bolStep fb) n mid).val = some (lineStart fb mid) := by
  induction mid generalizing n with
  | zero =>
    obtain ⟨n,rfl⟩ : ∃ k, n = k+1 := ⟨n-1,by omega⟩
    rw [Run.loop_of_inr n (r := 0) (by simp [bolStep])]
    rfl
  | succ mid ih =>
    obtain ⟨n,rfl⟩ : ∃ k, n = k+1 := ⟨n-1,by omega⟩
    unfold lineStart
    split
    · rename_i hc
      rw [Run.loop_of_inr n (r := mid+1) (by simp [bolStep,hc])]
    · rename_i hc
      have hstep : (bolStep fb (mid+1)).val = some (.inl mid) := by simp [bolStep,hc]
      rw [Run.loop_of_inl n hstep]
      exact ih (by omega)

@[simp] theorem beginOfLine_val (fb : Ptr) (pos : Nat) :
    (beginOfLine fb pos).val = some (lineStart fb pos) := bolLoop_val fb pos (by omega)

theorem beginOfLine_log {fb : Ptr} {pos : Nat} {e : Event}
    (he : e ∈ (beginOfLine fb pos).log) : ∃ i, i < pos ∧ e = .load .file i := by
  have hstep : ∀ a b : Nat, a ≤ pos → (bolStep fb a).val = some (.inl b) → b ≤ pos := by
    intro a b ha hb
    unfold bolStep at hb
    split at hb
    · simp at hb
      split at hb
      · simp at hb
      · simp at hb
        omega
    · simp at hb
  obtain ⟨mid,hr,he⟩ := Run.loop_log he
  have hmid : mid ≤ pos := hr.invariant hstep (Nat.le_refl _)
  unfold bolStep at he
  split at he
  · refine ⟨mid-1,by omega,?_⟩
    simp at he
    split at he <;> simpa using he
  · simp at he

/-- The loads and stores among the events, as opposed to the two marks. -/
def Access : Event → Prop
  | .load _ _ | .store _ _ => True
  | _ => False

def Event.report? : Event → Option (Nat × Nat)
  | .record pos linum | .amend pos linum => some (pos,linum)
  | _ => none

/-- The matches a run hands to worker_writebuffer: position and line number. -/
def reports (es : List Event) : List (Nat × Nat) := es.filterMap Event.report?

theorem reports_append (l l' : List Event) : reports (l ++ l') = reports l ++ reports l' := by
  simp [reports]

theorem Access.report {e : Event} (h : Access e) : e.report? = none := by
  cases e <;> first | rfl | exact h.elim

def Within (R : List Region) : Event → Prop
  | .load r _ | .store r _ => r ∈ R
  | _ => False

theorem Within.mono {R R' : List Region} (hR : ∀ r, r ∈ R → r ∈ R') (e : Event)
    (h : Within R e) : Within R' e := by
  cases e with
  | load r i => exact hR r h
  | store r i => exact hR r h
  | record => exact h
  | amend => exact h

theorem Within.access {R : List Region} (e : Event) (h : Within R e) : Access e := by
  cases e <;> trivial

variable {α : Type}

theorem reports_eq_nil {es : List Event} (h : ∀ e, e ∈ es → Access e) : reports es = [] := by
  rw [reports,List.filterMap_eq_nil_iff]
  exact fun e he => (h e he).report

theorem reports_of_only {x : Prog α} (h : Run.Only Access x) : reports x.log = [] :=
  reports_eq_nil h

variable {R : List Region}

theorem within_relabel {R' : List Region} {r s : Region} {x : Prog α}
    (h : Run.Only (Within R) x) (hR : ∀ r', r' ∈ R → (if r' = r then s else r') ∈ R')
    (base : Nat) : Run.Only (Within R') (x.relabel (.rebase r s base)) := by
  intro e he
  simp only [Run.log_relabel,List.mem_map] at he
  obtain ⟨e,he,rfl⟩ := he
  have hw := h e he
  cases e with
  | load r' i =>
    have hr := hR r' hw
    simp only [Event.rebase]
    split
    · rename_i he
      rwa [if_pos he] at hr
    · rename_i he
      rwa [if_neg he] at hr
  | store r' i =>
    have hr := hR r' hw
    simp only [Event.rebase]
    split
    · rename_i he
      rwa [if_pos he] at hr
    · rename_i he
      rwa [if_neg he] at hr
  | record => exact hw.elim
  | amend => exact hw.elim

theorem within_load {r : Region} {m : Nat → α} {i : Nat} (h : r ∈ R) :
    Run.Only (Within R) (load r m i) := by simpa [Run.Only,Within] using h

theorem within_store {r : Region} {m : Nat → α} {i : Nat} {x : α} (h : r ∈ R) :
    Run.Only (Within R) (store r m i x) := by simpa [Run.Only,Within] using h

theorem within_incInt {i : Nat} : Run.Only (Within R) (incInt i) := by simp [Run.Only]

theorem within_memcpy {rd rs : Region} {dst : Ptr} {d : Nat} {src : Ptr} {s n : Nat}
    (hd : rd ∈ R) (hs : rs ∈ R) : Run.Only (Within R) (memcpy rd rs dst d src s n) := by
  intro e he
  simp only [log_memcpy,List.mem_append,List.mem_map] at he
  rcases he with ⟨_,_,rfl⟩ | ⟨_,_,rfl⟩
  · exact hs
  · exact hd

theorem within_memcpyWithin {r : Region} {buf : Ptr} {d s n : Nat} (h : r ∈ R) :
    Run.Only (Within R) (memcpyWithin r buf d s n) :=
  .bind (within_memcpy h h) fun _ _ => .ite (fun _ => .pure _ _) fun _ => .stuck _

theorem within_checkGrow {b : Buffer} {len : Nat} (h : .buf ∈ R) :
    Run.Only (Within R) (checkGrow b len) := by
  refine .ite (fun _ => .bind ?_ fun c _ => .bind ?_ fun _ _ => .pure _ _) fun _ => .pure _ _
  · simp [Run.Only,growLoop_log]
  · intro e he
    simp only [log_memset,List.mem_map] at he
    obtain ⟨_,_,rfl⟩ := he
    exact h

theorem within_writeBuffer {b : Buffer} {content : Ptr} {len : Nat} :
    Run.Only (Within [.buf,.content]) (writeBuffer b content len) :=
  .bind (within_checkGrow (by decide)) fun _ _ =>
    .bind (within_memcpy (by decide) (by decide)) fun _ _ => .pure _ _

theorem within_writefBuffer {b : Buffer} {format : Nat → List UInt8} {arg : Nat} :
    Run.Only (Within [.buf,.lit]) (writefBuffer b format arg) :=
  .bind (within_relabel within_writeBuffer (by decide) _) fun _ _ => .pure _ _

theorem within_writelineColorBuffer {b : Buffer} {content : Ptr} {len off1 colorlen : Nat} :
    Run.Only (Within [.buf,.lit,.content])
      (writelineColorBuffer b content len off1 colorlen) := by
  refine .bind (within_checkGrow (by decide)) fun _ _ => ?_
  refine .bind (within_memcpy (by decide) (by decide)) fun _ _ => ?_
  refine .bind (within_memcpy (by decide) (by decide)) fun _ _ => ?_
  refine .bind (within_memcpy (by decide) (by decide)) fun _ _ => ?_
  refine .bind (within_memcpy (by decide) (by decide)) fun _ _ => ?_
  refine .bind (fun e he => ?_) fun _ _ =>
    .bind (within_memcpy (by decide) (by decide)) fun _ _ => .pure _ _
  obtain ⟨i,hi⟩ := exists_textRun content (off1+colorlen) (restLimit len off1 colorlen)
  obtain ⟨_,-,-,-,rfl⟩ := (mem_restLoop_log hi).mp he
  simp [Within]

theorem within_strcpy {buf : Ptr} {dst src cap : Nat} (h : .buf ∈ R) :
    Run.Only (Within R) (strcpy buf dst src cap) := by
  refine Run.only_loop (I := fun _ => True) (fun _ _ _ _ => trivial) (fun s _ => ?_) trivial _
  exact .bind (within_load h) fun _ _ => .bind (within_store h) fun _ _ =>
    .ite (fun _ => .pure _ _) fun _ => .pure _ _

theorem within_amendlineColorBuffer {b : Buffer} {lastlen off1 colorlen cnt : Nat} :
    Run.Only (Within [.buf,.lit]) (amendlineColorBuffer b lastlen off1 colorlen cnt) := by
  refine .bind (within_checkGrow (by decide)) fun _ _ => ?_
  refine .bind (within_strcpy (by decide)) fun _ _ => ?_
  refine .bind (within_memcpyWithin (by decide)) fun _ _ => ?_
  refine .bind (within_memcpy (by decide) (by decide)) fun _ _ => ?_
  exact .bind (within_memcpy (by decide) (by decide)) fun _ _ => .pure _ _

theorem InBounds.within {m n : Nat} (e : Event) (h : InBounds m n e) :
    Within [.pat,.table,.text] e := by
  unfold InBounds at h
  split at h <;> simp [Within] at h ⊢

theorem within_beginOfLine {fb : Ptr} {pos : Nat} :
    Run.Only (Within [.file]) (beginOfLine fb pos) := by
  intro e he
  obtain ⟨_,-,rfl⟩ := beginOfLine_log he
  simp [Within]

/-- A call of worker_writebuffer finds the line, takes one of its branches, and
from there on only touches the buffer and what it copies. -/
theorem workerWritebuffer_log (opt : Options) (st : Statics) (b : Buffer) (fb : Ptr)
    (pos linum lastlinum : Nat) : ∃ l : List Event,
      (∀ e, e ∈ l → Within [.buf,.lit,.file] e) ∧
      (workerWritebuffer opt st b fb pos linum lastlinum).log = (beginOfLine fb pos).log ++
        (if linum ≠ lastlinum then .record pos linum else .amend pos linum) :: l := by
  rw [workerWritebuffer,Run.log_bind_of_val _ (beginOfLine_val fb pos)]
  split
  · rw [Run.log_bind_of_val _ (Run.val_emit _),Run.log_emit]
    refine ⟨_,?_,rfl⟩
    refine Run.Only.bind (within_writefBuffer.mono ?_) fun _ _ => Run.Only.bind
      (within_relabel within_writelineColorBuffer (by decide) _) fun _ _ => .pure _ _
    exact Within.mono (by decide)
  · rw [Run.log_bind_of_val _ (Run.val_emit _),Run.log_emit]
    refine ⟨_,?_,rfl⟩
    refine Run.Only.bind (within_amendlineColorBuffer.mono ?_) fun _ _ => Run.Only.bind
      within_incInt fun _ _ => .pure _ _
    exact Within.mono (by decide)

theorem workerWritebuffer_reports (opt : Options) (st : Statics) (b : Buffer) (fb : Ptr)
    (pos linum lastlinum : Nat) :
    reports (workerWritebuffer opt st b fb pos linum lastlinum).log = [(pos,linum)] := by
  obtain ⟨l,hl,hlog⟩ := workerWritebuffer_log opt st b fb pos linum lastlinum
  have hrest : reports l = [] := reports_eq_nil fun e he => (hl e he).access
  have hbol : reports (beginOfLine fb pos).log = [] :=
    reports_of_only (within_beginOfLine.mono Within.access)
  rw [hlog,reports_append,hbol,List.nil_append]
  unfold reports at hrest ⊢
  split <;> simp [Event.report?,hrest]

theorem workerWritebuffer_amend {opt : Options} {st : Statics} {b : Buffer} {fb : Ptr}
    {pos linum lastlinum pos' linum' : Nat}
    (h : .amend pos' linum' ∈ (workerWritebuffer opt st b fb pos linum lastlinum).log) :
    linum' = lastlinum := by
  obtain ⟨l,hl,hlog⟩ := workerWritebuffer_log opt st b fb pos linum lastlinum
  rw [hlog,List.mem_append,List.mem_cons] at h
  rcases h with h | h | h
  · exact (within_beginOfLine _ h).elim
  · split at h
    · cases h
    · rename_i he
      cases h
      exact not_not.mp he
  · exact (hl _ h).elim

/-- The line from which a record for `pos` is copied. -/
def lineAt (fb : Ptr) (pos : Nat) : Ptr := fun i => fb (lineStart fb pos + i)

def column (fb : Ptr) (pos : Nat) : Nat := pos - lineStart fb pos

/-- What a call that starts a record appends to the buffer. -/
def recordEntry (opt : Options) (fb : Ptr) (pos linum : Nat) : List UInt8 :=
  linumFormat linum ++ recordText (lineAt fb pos) 1024 (column fb pos) opt.searchPatlen

variable {opt : Options} {st : Statics} {b : Buffer} {fb : Ptr} {pos linum lastlinum : Nat}

theorem workerWritebuffer_record (hne : linum ≠ lastlinum) {n : Nat} {b₁ : Buffer}
    (hv : (writefBuffer b linumFormat linum).val = some (n,b₁)) :
    (workerWritebuffer opt st b fb pos linum lastlinum).val =
      (writelineColorBuffer b₁ (lineAt fb pos) 1024 (column fb pos) opt.searchPatlen).val.map
        fun x => (⟨x.1,1⟩,x.2) := by
  simp only [workerWritebuffer,Run.val_bind,beginOfLine_val,Option.bind_some]
  rw [if_pos hne]
  simp only [Run.val_bind,Run.val_emit,Option.bind_some,hv,Run.val_relabel]
  change (writelineColorBuffer b₁ (lineAt fb pos) 1024 (column fb pos) _).val.bind _ = _
  cases (writelineColorBuffer b₁ (lineAt fb pos) 1024 (column fb pos) opt.searchPatlen).val <;> rfl

theorem workerWritebuffer_appends (hne : linum ≠ lastlinum) (hcap : 0 < b.cap)
    (hrest : (lineRest (lineAt fb pos) (column fb pos + opt.searchPatlen)
      (restLimit 1024 (column fb pos) opt.searchPatlen)).length < 2^31)
    (hlen : (recordText (lineAt fb pos) 1024 (column fb pos) opt.searchPatlen).length < 2^32) :
    ∃ nll b₁ b', (workerWritebuffer opt st b fb pos linum lastlinum).val =
        some (⟨nll,1⟩,b') ∧
      Appended b (linumFormat linum).length (linumFormat linum) b₁ ∧
      Appended b₁ 1047 (recordText (lineAt fb pos) 1024 (column fb pos) opt.searchPatlen) b' := by
  obtain ⟨b₁,hv,ha⟩ := writefBuffer_spec linumFormat linum hcap
  obtain ⟨b',hv',ha'⟩ := writelineColorBuffer_spec (ha.cap_pos hcap) hrest hlen
  exact ⟨_,b₁,b',by rw [workerWritebuffer_record hne hv,hv']; rfl,ha,ha'⟩

end SSearcher
