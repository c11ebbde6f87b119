import SSearcher.Match
import SSearcher.Matching
set_option autoImplicit false

namespace SSearcher
open Runs Matching Memory

structure Prepared (k : Kmp) (p : Ptr) (m : Nat) : Prop where
  pat : k.pat = p
  len : k.patLen = m
  pos : 0 < m
  small : m < 2^31
  table : ∃ t, k.kmpTable = some t ∧ ∀ i, i < m → t.entry i = selfRun p (i+1)

def InBounds (m n : Nat) : Event → Prop
  | .load .pat i | .load .table i | .store .table i => i < m
  | .load .text i => i < n
  | _ => False

structure PrepareInv (p : Ptr) (m : Nat) (s : PrepareLoop) : Prop where
  pos : 0 < s.i
  le : s.i ≤ m
  filled : ∀ j, j < s.i → s.table j = selfRun p (j+1)

variable {p t : Ptr} {m n : Nat}

theorem PrepareInv.last {s : PrepareLoop} (h : PrepareInv p m s) :
    s.table (s.i-1) = selfRun p s.i := by
  have hpos := h.pos
  rw [h.filled _ (by omega),Nat.sub_add_cancel hpos]

theorem prepareStep_val {s : PrepareLoop} (h : PrepareInv p m s) (hlt : s.i < m) :
    (prepareStep p m s).val = (incInt s.i).val.map fun i =>
      .inl ⟨i,put s.table s.i [selfRun p (s.i+1)]⟩ := by
  have hlast := h.last
  rw [selfRun_succ p h.pos]
  by_cases hc : p (selfRun p s.i) = p s.i
  · simp only [prepareStep,if_pos hlt,Run.val_bind,val_load,Option.bind_some,hlast,if_pos hc,
      val_store,Run.val_pure]
    cases (incInt s.i).val <;> rfl
  · simp only [prepareStep,if_pos hlt,Run.val_bind,val_load,Option.bind_some,hlast,if_neg hc,
      val_store,Run.val_pure]
    cases (incInt s.i).val <;> rfl

theorem PrepareInv.next {s : PrepareLoop} (h : PrepareInv p m s) (hlt : s.i < m) :
    PrepareInv p m ⟨s.i+1,put s.table s.i [selfRun p (s.i+1)]⟩ := by
  refine ⟨by simp,hlt,fun j hj => ?_⟩
  simp only [put_singleton]
  split
  · rename_i he
    rw [he]
  · exact h.filled j (by simp at hj; omega)

theorem prepareStep_done {s : PrepareLoop} (h : ¬ s.i < m) :
    (prepareStep p m s).val = some (.inr s.table) := by simp [prepareStep,h]

theorem prepareInv_step (s s' : PrepareLoop) (h : PrepareInv p m s)
    (hs : (prepareStep p m s).val = some (.inl s')) : PrepareInv p m s' := by
  by_cases hlt : s.i < m
  · rw [prepareStep_val h hlt,Option.map_eq_some_iff] at hs
    obtain ⟨i,hi,heq⟩ := hs
    obtain ⟨rfl,-⟩ := incInt_eq_some.mp hi
    cases heq
    exact h.next hlt
  · simp [prepareStep_done hlt] at hs

theorem prepareStep_log {s : PrepareLoop} (hlt : s.i < m) : (prepareStep p m s).log =
    [.load .table (s.i-1),.load .pat (s.table (s.i-1)),.load .pat s.i] ++
      (if p (s.table (s.i-1)) = p s.i then [.load .table (s.i-1)] else []) ++
      [.store .table s.i] := by
  by_cases hc : p (s.table (s.i-1)) = p s.i <;> simp [prepareStep,hlt,hc]

theorem prepareStep_only {s : PrepareLoop} (h : PrepareInv p m s) :
    Run.Only (InBounds m n) (prepareStep p m s) := by
  have hpos := h.pos
  have hrun := (selfRun_border p hpos).1
  intro e he
  by_cases hlt : s.i < m
  · rw [prepareStep_log hlt,h.last] at he
    by_cases hc : p (selfRun p s.i) = p s.i
    all_goals
      simp [hc] at he
      rcases he with rfl | rfl | rfl | rfl | rfl <;> simp [InBounds] <;> omega
  · simp [prepareStep,hlt] at he

theorem prepareInv_init (table : Nat → Nat) (hm : 0 < m) :
    PrepareInv p m ⟨1,put table 0 [0]⟩ := by
  refine ⟨by simp,hm,fun j hj => ?_⟩
  obtain rfl : j = 0 := by simp at hj; omega
  simp [put_singleton,selfRun]

theorem prepareStep_next {s : PrepareLoop} (h : PrepareInv p m s) (hlt : s.i < m)
    (hsmall : m < 2^31) : (prepareStep p m s).val =
      some (.inl ⟨s.i+1,put s.table s.i [selfRun p (s.i+1)]⟩) := by
  rw [prepareStep_val h hlt,incInt_of_lt (by omega)]
  rfl

theorem prepareLoop_spec (table : Nat → Nat) (hm : 0 < m) (hsmall : m < 2^31) :
    ∃ table', (Run.loop (prepareStep p m) (m+1) ⟨1,put table 0 [0]⟩).val = some table' ∧
      ∀ i, i < m → table' i = selfRun p (i+1) := by
  have hi := prepareInv_init (p := p) table hm
  obtain ⟨r,hr⟩ : ∃ r, (Run.loop (prepareStep p m) (m+1) ⟨1,put table 0 [0]⟩).val = some r := by
    apply Run.loop_total (I := PrepareInv p m) (μ := fun s => m-s.i) _ hi
      (Nat.lt_succ_of_le (Nat.sub_le m 1))
    intro s hs
    by_cases hlt : s.i < m
    · refine ⟨_,prepareStep_next hs hlt hsmall,?_⟩
      rintro s' ⟨⟩
      exact ⟨hs.next hlt,by simp; omega⟩
    · exact ⟨_,prepareStep_done hlt,by simp⟩
  refine ⟨r,hr,?_⟩
  obtain ⟨s,hreach,hexit⟩ := Run.loop_exit hr
  have hs := hreach.invariant prepareInv_step hi
  by_cases hlt : s.i < m
  · simp [prepareStep_next hs hlt hsmall] at hexit
  · simp only [prepareStep_done hlt,Option.some.injEq,Sum.inr.injEq] at hexit
    intro i him
    rw [← hexit]
    exact hs.filled i (by omega)

theorem kmpPrepare_spec (k : Kmp) (p : Ptr) (hm : 0 < m) (hsmall : m < 2^31) :
    ∃ k', (kmpPrepare k p m).val = some k' ∧ Prepared k' p m := by
  obtain ⟨table,hloop,htable⟩ :=
    prepareLoop_spec (p := p) (k.kmpTable.getD ⟨m,fun _ => 0⟩).entry hm hsmall
  refine ⟨_,by simp [kmpPrepare,hloop]; rfl,?_⟩
  exact ⟨rfl,rfl,hm,hsmall,_,rfl,htable⟩

theorem kmpPrepare_only (k : Kmp) (p : Ptr) (hm : 0 < m) (n : Nat) :
    Run.Only (InBounds m n) (kmpPrepare k p m) := by
  unfold kmpPrepare
  refine .bind ?_ fun table htable => .bind ?_ fun _ _ => .pure _ _
  · simpa [Run.Only,InBounds] using hm
  · simp only [val_store,Option.some.injEq] at htable
    rw [← htable]
    exact Run.only_loop prepareInv_step (fun _ => prepareStep_only) (prepareInv_init _ hm) _

/-- The line counter after the loop has looked at index `i`. -/
def countLine (t : Ptr) (i lineCnt : Nat) : Nat :=
  if t i = newline then u32 (lineCnt+1) else lineCnt

theorem Prepared.last {k : Kmp} (hk : Prepared k p m) (i : Nat) :
    i = subSize k.patLen 1 ↔ i+1 = m := by
  have hpos := hk.pos
  have hsmall := hk.small
  rw [hk.len,subSize_of_le hpos (by omega)]
  omega

theorem Prepared.entry {k : Kmp} (hk : Prepared k p m) {i : Nat} (h0 : 0 < i) (hi : i < m) :
    (k.tableEntry (i-1)).val = some (selfRun p i) ∧
      (k.tableEntry (i-1)).log = [.load .table (i-1)] := by
  obtain ⟨table,htable,hentry⟩ := hk.table
  simp [Kmp.tableEntry,htable,hentry (i-1) (by omega),Nat.sub_add_cancel h0]

theorem kmpStep_exit (k : Kmp) (t : Ptr) {s : KmpLoop} (h : ¬ s.textPos < n) :
    (kmpStep k t n s).val = some (.inr ⟨false,s.lineCnt,2^32-1⟩) := by
  simp [kmpStep,h]

theorem kmpSkip_val (i j l : Nat) :
    (kmpSkip i j l).val = (incInt j).val.map fun j => .inl ⟨i,j,l⟩ := by
  simp only [kmpSkip,Run.val_bind,Run.val_pure]
  cases (incInt j).val <;> rfl

theorem kmpHit_val {k : Kmp} (hk : Prepared k p m) (i j l : Nat) :
    (kmpHit k i j l).val =
      if i+1 = m then some (.inr ⟨true,l,u32 (subSize j m + 1)⟩)
      else (incInt j).val.map fun j => .inl ⟨i+1,j,l⟩ := by
  unfold kmpHit
  rw [hk.len]
  have hlast := hk.last i
  rw [hk.len] at hlast
  by_cases h : i+1 = m
  · rw [if_pos (hlast.mpr h),if_pos h]
    rfl
  · rw [if_neg (fun h' => h (hlast.mp h')),if_neg h]
    simp only [Run.val_bind,Run.val_pure]
    cases (incInt j).val <;> rfl

theorem kmpStep_val {k : Kmp} (hk : Prepared k p m) (t : Ptr) {s : KmpLoop}
    (hs : s.patPos < m) (ht : s.textPos < n) :
    (kmpStep k t n s).val =
      if t s.textPos = p s.patPos then
        (kmpHit k s.patPos s.textPos (countLine t s.textPos s.lineCnt)).val
      else if s.patPos = 0 then
        (kmpSkip 0 s.textPos (countLine t s.textPos s.lineCnt)).val
      else if t s.textPos = p (selfRun p s.patPos) then
        (kmpHit k (selfRun p s.patPos) s.textPos (countLine t s.textPos s.lineCnt)).val
      else if selfRun p s.patPos ≠ 0 then
        some (.inl ⟨0,s.textPos,countLine t s.textPos s.lineCnt⟩)
      else
        (kmpSkip 0 s.textPos (countLine t s.textPos s.lineCnt)).val := by
  have hcnt : (if t s.textPos = newline then u32 (s.lineCnt+1) else s.lineCnt) =
      countLine t s.textPos s.lineCnt := rfl
  simp only [kmpStep,ht,if_true,Run.val_bind,val_load,Option.bind_some,hk.pat,hcnt]
  split
  · rfl
  split
  · rename_i h0
    rw [h0]
  · rename_i h0
    obtain ⟨hval,-⟩ := hk.entry (by omega) hs
    simp only [Run.val_bind,val_load,hval,Option.bind_some]
    split
    · rfl
    split
    · rfl
    · rename_i hz
      rw [not_not.mp hz]

/-- One round of the search loop over a byte: it starts over at the pattern's
first byte and reads the byte again, or it has found the pattern, or it moves
on with as many bytes matched as the single-fallback matcher. -/
theorem kmpStep_cases {k : Kmp} (hk : Prepared k p m) (t : Ptr) {s : KmpLoop}
    (hs : s.patPos < m) (ht : s.textPos < n) :
    (StartsOver p (selfRun p) s.patPos (t s.textPos) ∧
      advance p (selfRun p) s.patPos (t s.textPos) =
        advance p (selfRun p) 0 (t s.textPos) ∧
      (kmpStep k t n s).val =
        some (.inl ⟨0,s.textPos,countLine t s.textPos s.lineCnt⟩)) ∨
    (¬ StartsOver p (selfRun p) s.patPos (t s.textPos) ∧
      advance p (selfRun p) s.patPos (t s.textPos) = m ∧
      (kmpStep k t n s).val = some (.inr ⟨true,countLine t s.textPos s.lineCnt,
        u32 (subSize s.textPos m + 1)⟩)) ∨
    (¬ StartsOver p (selfRun p) s.patPos (t s.textPos) ∧
      advance p (selfRun p) s.patPos (t s.textPos) < m ∧
      (kmpStep k t n s).val = (incInt s.textPos).val.map fun j =>
        .inl ⟨advance p (selfRun p) s.patPos (t s.textPos),j,
          countLine t s.textPos s.lineCnt⟩) := by
  rw [kmpStep_val hk t hs ht,kmpHit_val hk,kmpHit_val hk,kmpSkip_val]
  have hpos := hk.pos
  by_cases hc : t s.textPos = p s.patPos
  · have hadv : advance p (selfRun p) s.patPos (t s.textPos) = s.patPos+1 := if_pos hc.symm
    have hno : ¬ StartsOver p (selfRun p) s.patPos (t s.textPos) := fun h => h.1 hc.symm
    rw [if_pos hc,hadv]
    by_cases hl : s.patPos+1 = m
    · exact .inr (.inl ⟨hno,hl,if_pos hl⟩)
    · exact .inr (.inr ⟨hno,by omega,if_neg hl⟩)
  have hne : ¬ p s.patPos = t s.textPos := fun h => hc h.symm
  rw [if_neg hc]
  by_cases h0 : s.patPos = 0
  · have hadv : advance p (selfRun p) s.patPos (t s.textPos) = 0 := by
      rw [advance,if_neg hne,if_pos h0]
    rw [if_pos h0,hadv]
    exact .inr (.inr ⟨fun h => h.2.1 h0,hpos,rfl⟩)
  have hlt := (selfRun_border p (k := s.patPos) (by omega)).1
  rw [if_neg h0]
  by_cases hc' : t s.textPos = p (selfRun p s.patPos)
  · have hadv : advance p (selfRun p) s.patPos (t s.textPos) = selfRun p s.patPos + 1 := by
      rw [advance,if_neg hne,if_neg h0,if_pos hc'.symm]
    rw [if_pos hc',hadv,if_neg (by omega)]
    exact .inr (.inr ⟨fun h => h.2.2.1 hc'.symm,by omega,rfl⟩)
  have hne' : ¬ p (selfRun p s.patPos) = t s.textPos := fun h => hc' h.symm
  rw [if_neg hc']
  by_cases hz : selfRun p s.patPos = 0
  · have hadv : advance p (selfRun p) s.patPos (t s.textPos) = 0 := by
      rw [advance,if_neg hne,if_neg h0,if_neg hne',if_neg (by rwa [hz] at hne')]
    rw [if_neg (not_not.mpr hz),hadv]
    exact .inr (.inr ⟨fun h => h.2.2.2 hz,hpos,rfl⟩)
  · refine .inl ⟨⟨hne,h0,hne',hz⟩,?_,if_pos hz⟩
    rw [advance,if_neg hne,if_neg h0,if_neg hne',advance]
    simp

theorem kmpHit_log (k : Kmp) (i j l : Nat) : (kmpHit k i j l).log = [] := by
  unfold kmpHit
  split
  · rfl
  · simp [Run.log_bind]
    cases (incInt j).val <;> rfl

theorem kmpSkip_log (i j l : Nat) : (kmpSkip i j l).log = [] := by
  simp [kmpSkip,Run.log_bind]
  cases (incInt j).val <;> rfl

theorem kmpStep_only {k : Kmp} (hk : Prepared k p m) (t : Ptr) {s : KmpLoop}
    (hs : s.patPos < m) : Run.Only (InBounds m n) (kmpStep k t n s) := by
  have hhit : ∀ i l, Run.Only (InBounds m n) (kmpHit k i s.textPos l) := by
    intro i l
    simp [Run.Only,kmpHit_log]
  have hskip : ∀ i l, Run.Only (InBounds m n) (kmpSkip i s.textPos l) := by
    intro i l
    simp [Run.Only,kmpSkip_log]
  have hload : ∀ (m' : Ptr) i, i < m → Run.Only (InBounds m n) (load .pat m' i) := by
    intro m' i hi
    simpa [Run.Only,InBounds] using hi
  refine .ite (fun ht => ?_) fun _ => .pure _ _
  have htext : Run.Only (InBounds m n) (load .text t s.textPos) := by
    simpa [Run.Only,InBounds] using ht
  refine .bind htext fun _ _ => .bind htext fun _ _ => .bind (hload _ _ hs) fun _ _ => ?_
  refine .ite (fun _ => hhit _ _) fun _ => .ite (fun _ => hskip _ _) fun h0 => ?_
  obtain ⟨hval,hlog⟩ := hk.entry (by omega) hs
  refine .bind (by rw [Run.Only,hlog]; simp [InBounds]; omega) fun i hi => ?_
  rw [hval,Option.some.injEq] at hi
  have hlt := (selfRun_border p (k := s.patPos) (by omega)).1
  refine .bind htext fun _ _ => .bind (hload _ _ (by omega)) fun _ _ => ?_
  exact .ite (fun _ => hhit _ _) fun _ => .ite (fun _ => .pure _ _) fun _ => hskip _ _

/-- At the head of the search loop the pattern has not been matched yet, and
`patPos` is where the single-fallback matcher stands, or the loop has just
started over and will stand there after the next byte. -/
structure SearchInv (p t : Ptr) (m n : Nat) (s : KmpLoop) : Prop where
  patPos : s.patPos < m
  textPos : s.textPos ≤ n
  small : s.textPos < 2^31
  searching : Searching p (selfRun p) t m s.textPos
  stands : s.patPos = stand p (selfRun p) t s.textPos ∨
    s.patPos = 0 ∧ advance p (selfRun p) 0 (t s.textPos) =
      stand p (selfRun p) t (s.textPos+1)

theorem SearchInv.next {s : KmpLoop} (h : SearchInv p t m n s) :
    advance p (selfRun p) s.patPos (t s.textPos) = stand p (selfRun p) t (s.textPos+1) := by
  rcases h.stands with hs | ⟨h0,hs⟩
  · rw [hs,stand]
  · rw [h0,hs]

theorem searchInv_init (hm : 0 < m) (linum : Nat) : SearchInv p t m n ⟨0,0,linum⟩ where
  patPos := hm
  textPos := Nat.zero_le n
  small := by simp
  searching := fun i hi => by
    obtain rfl : i = 0 := by simpa using hi
    exact hm
  stands := .inl rfl

theorem searchInv_step {k : Kmp} (hk : Prepared k p m) (s s' : KmpLoop)
    (h : SearchInv p t m n s) (hs : (kmpStep k t n s).val = some (.inl s')) :
    SearchInv p t m n s' := by
  by_cases ht : s.textPos < n
  · rcases kmpStep_cases hk t h.patPos ht with ⟨-,hadv,hv⟩ | ⟨-,-,hv⟩ | ⟨-,hlt,hv⟩
    · simp only [hv,Option.some.injEq,Sum.inl.injEq] at hs
      subst hs
      exact ⟨hk.pos,h.textPos,h.small,h.searching,.inr ⟨rfl,by rw [← hadv,h.next]⟩⟩
    · simp [hv] at hs
    · rw [hv] at hs
      simp only [Option.map_eq_some_iff,incInt_eq_some,Sum.inl.injEq] at hs
      obtain ⟨j,⟨rfl,hsmall⟩,rfl⟩ := hs
      rw [h.next] at hlt ⊢
      exact ⟨hlt,ht,hsmall,h.searching.succ hlt,.inl rfl⟩
  · simp [kmpStep_exit k t ht] at hs

theorem matchpos_eq {i m : Nat} (hm : m ≤ i+1) (hi : i < 2^31) :
    u32 (subSize i m + 1) = i+1-m := by
  unfold u32 subSize
  omega

theorem searchInv_exit {k : Kmp} (hk : Prepared k p m) {s : KmpLoop} {r : KmpRet}
    (h : SearchInv p t m n s) (hr : (kmpStep k t n s).val = some (.inr r)) :
    (s.textPos = n ∧ r = ⟨false,s.lineCnt,2^32-1⟩) ∨
    (s.textPos < n ∧ stand p (selfRun p) t (s.textPos+1) = m ∧
      r = ⟨true,countLine t s.textPos s.lineCnt,s.textPos+1-m⟩) := by
  have htn := h.textPos
  by_cases ht : s.textPos < n
  · rcases kmpStep_cases hk t h.patPos ht with ⟨-,-,hv⟩ | ⟨-,hadv,hv⟩ | ⟨-,-,hv⟩
    · simp [hv] at hr
    · rw [h.next] at hadv
      have hle := (stand_agree (p := p) (t := t) (fun _ => selfRun_border p) (s.textPos+1)).1
      rw [hv,matchpos_eq (by omega) h.small] at hr
      simp only [Option.some.injEq,Sum.inr.injEq] at hr
      exact .inr ⟨ht,hadv,hr.symm⟩
    · rw [hv] at hr
      simp at hr
  · simp only [kmpStep_exit k t ht,Option.some.injEq,Sum.inr.injEq] at hr
    exact .inl ⟨by omega,hr.symm⟩

theorem kmpMatch_reaches {k : Kmp} (hk : Prepared k p m) {linum : Nat} {r : KmpRet}
    (hr : (kmpMatch k t n linum).val = some r) :
    ∃ s, Run.Reaches (kmpStep k t n) ⟨0,0,linum⟩ s ∧ SearchInv p t m n s ∧
      (kmpStep k t n s).val = some (.inr r) := by
  obtain ⟨s,hreach,hexit⟩ := Run.loop_exit hr
  exact ⟨s,hreach,hreach.invariant (searchInv_step hk) (searchInv_init hk.pos linum),hexit⟩

theorem kmpMatch_spec {k : Kmp} (hk : Prepared k p m) {linum : Nat} {r : KmpRet}
    (hr : (kmpMatch k t n linum).val = some r) :
    (r.found = false ∧ Searching p (selfRun p) t m n) ∨
    (r.found = true ∧ ∃ j, j < n ∧ j < 2^31 ∧ Searching p (selfRun p) t m j ∧
      stand p (selfRun p) t (j+1) = m ∧ r.matchpos = j+1-m) := by
  obtain ⟨s,-,hs,hexit⟩ := kmpMatch_reaches hk hr
  rcases searchInv_exit hk hs hexit with ⟨he,rfl⟩ | ⟨hlt,hst,rfl⟩
  · exact .inl ⟨rfl,he ▸ hs.searching⟩
  · exact .inr ⟨rfl,s.textPos,hlt,hs.small,hs.searching,hst,rfl⟩

theorem kmpMatch_sound {k : Kmp} (hk : Prepared k p m) {linum : Nat} {r : KmpRet}
    (hr : (kmpMatch k t n linum).val = some r) (hf : r.found = true) :
    r.matchpos+m ≤ n ∧ r.matchpos+m ≤ 2^31 ∧ Occurs p t m r.matchpos := by
  rcases kmpMatch_spec hk hr with ⟨hno,-⟩ | ⟨-,j,hjn,hj,-,hst,hpos⟩
  · simp [hno] at hf
  · have hag := stand_agree (p := p) (t := t) (fun _ => selfRun_border p) (j+1)
    rw [hst] at hag
    have hle := hag.1
    rw [hpos]
    exact ⟨by omega,by omega,hag.occurs⟩

theorem kmpMatch_returns {k : Kmp} (hk : Prepared k p m) (t : Ptr) (linum : Nat) {e : Nat}
    (hle : e ≤ n) (hsmall : e < 2^31)
    (he : e = n ∨ stand p (selfRun p) t (e+1) = m) :
    ∃ r, (kmpMatch k t n linum).val = some r := by
  apply Run.loop_total (I := fun s => SearchInv p t m n s ∧ s.textPos ≤ e)
    (μ := fun s => 2*(n-s.textPos) + if s.patPos = 0 then 0 else 1) _
    ⟨searchInv_init hk.pos linum,Nat.zero_le e⟩ (by simp)
  rintro s ⟨h,hse⟩
  by_cases ht : s.textPos < n
  · rcases kmpStep_cases hk t h.patPos ht with ⟨⟨-,h0,-⟩,-,hv⟩ | ⟨-,-,hv⟩ | ⟨-,hlt,hv⟩
    · refine ⟨_,hv,fun s' hs => ⟨⟨searchInv_step hk s s' h (by rw [hv,hs]),?_⟩,?_⟩⟩
      · obtain rfl := Sum.inl.inj hs
        exact hse
      · obtain rfl := Sum.inl.inj hs
        simp [h0]
    · exact ⟨_,hv,by simp⟩
    · have hne : s.textPos ≠ e := by
        rintro rfl
        rcases he with he | he
        · omega
        · rw [h.next,he] at hlt
          exact Nat.lt_irrefl m hlt
      simp only [incInt_of_lt (i := s.textPos) (by omega),Run.val_pure,Option.map_some] at hv
      refine ⟨_,hv,fun s' hs => ⟨⟨searchInv_step hk s s' h (by rw [hv,hs]),?_⟩,?_⟩⟩
      · obtain rfl := Sum.inl.inj hs
        simp only
        omega
      · obtain rfl := Sum.inl.inj hs
        simp only
        split <;> split <;> omega
  · exact ⟨_,kmpStep_exit k t ht,by simp⟩

theorem kmpMatch_total {k : Kmp} (hk : Prepared k p m) (t : Ptr) (hn : n < 2^31)
    (linum : Nat) : ∃ r, (kmpMatch k t n linum).val = some r :=
  kmpMatch_returns hk t linum (Nat.le_refl n) hn (.inl rfl)

/-- A search has a result exactly if its int need not exceed 2^31-1. -/
theorem kmpMatch_some_iff {k : Kmp} (hk : Prepared k p m) (t : Ptr) (linum : Nat) :
    (∃ r, (kmpMatch k t n linum).val = some r) ↔
      n < 2^31 ∨ ∃ e, e < n ∧ e < 2^31 ∧ stand p (selfRun p) t (e+1) = m := by
  constructor
  · rintro ⟨r,hr⟩
    obtain ⟨s,-,hs,hexit⟩ := kmpMatch_reaches hk hr
    have hsmall := hs.small
    rcases searchInv_exit hk hs hexit with ⟨he,-⟩ | ⟨hlt,hst,-⟩
    · exact .inl (by omega)
    · exact .inr ⟨s.textPos,hlt,hsmall,hst⟩
  · rintro (hn | ⟨e,he,hsmall,hst⟩)
    · exact kmpMatch_total hk t hn linum
    · exact kmpMatch_returns hk t linum (Nat.le_of_lt he) hsmall (.inr hst)

theorem kmpMatch_only {k : Kmp} (hk : Prepared k p m) (t : Ptr) (n linum : Nat) :
    Run.Only (InBounds m n) (kmpMatch k t n linum) :=
  Run.only_loop (searchInv_step hk) (fun _ h => kmpStep_only hk t h.patPos)
    (searchInv_init hk.pos linum) _

def isNewline (t : Ptr) (j : Nat) : Nat := if t j = newline then 1 else 0

def newlines (t : Ptr) (j : Nat) : Nat := (slice t 0 j).count newline

/-- The newlines among the first `j` bytes that the search counts twice, because
it starts over at them. -/
def recounts (p t : Ptr) : Nat → Nat
  | 0 => 0
  | j+1 => recounts p t j +
    if StartsOver p (selfRun p) (stand p (selfRun p) t j) (t j) then isNewline t j else 0

theorem newlines_succ (t : Ptr) (j : Nat) :
    newlines t (j+1) = newlines t j + isNewline t j := by
  rw [newlines,slice_succ,List.count_append,List.count_singleton,Nat.zero_add]
  simp [newlines,isNewline]

theorem isNewline_le (t : Ptr) (j : Nat) : isNewline t j ≤ 1 := by
  unfold isNewline
  split <;> omega

theorem newlines_le (t : Ptr) (j : Nat) : newlines t j ≤ j := by
  induction j with
  | zero => simp [newlines]
  | succ j ih =>
    have := isNewline_le t j
    rw [newlines_succ]
    omega

theorem recounts_le (p t : Ptr) (j : Nat) : recounts p t j ≤ j := by
  induction j with
  | zero => simp [recounts]
  | succ j ih =>
    have := isNewline_le t j
    rw [recounts]
    split <;> omega

/-- The line counter at the head of the search loop. A loop that has just started
over has counted the byte it is about to read again. -/
structure LineInv (p t : Ptr) (n linum : Nat) (s : KmpLoop) : Prop where
  count : s.lineCnt = linum + newlines t s.textPos + recounts p t s.textPos +
    if s.patPos = stand p (selfRun p) t s.textPos then 0 else isNewline t s.textPos
  behind : s.patPos ≠ stand p (selfRun p) t s.textPos → s.textPos < n ∧
    StartsOver p (selfRun p) (stand p (selfRun p) t s.textPos) (t s.textPos)

theorem LineInv.countLine {linum : Nat} {s : KmpLoop} (h : LineInv p t n linum s)
    (ht : s.textPos < n) (hl : linum+2*n < 2^32) :
    countLine t s.textPos s.lineCnt = s.lineCnt + isNewline t s.textPos := by
  have hcount := h.count
  have := newlines_le t s.textPos
  have := recounts_le p t s.textPos
  have := isNewline_le t s.textPos
  unfold SSearcher.countLine isNewline
  split
  · exact u32_of_lt (by split at hcount <;> omega)
  · rfl

theorem LineInv.read {linum : Nat} {s : KmpLoop} (h : LineInv p t n linum s)
    (hno : ¬ StartsOver p (selfRun p) s.patPos (t s.textPos)) :
    s.lineCnt + isNewline t s.textPos =
      linum + newlines t (s.textPos+1) + recounts p t (s.textPos+1) := by
  rw [newlines_succ,recounts,h.count]
  by_cases hs : s.patPos = stand p (selfRun p) t s.textPos
  · rw [if_pos hs,if_neg (hs ▸ hno)]
    omega
  · rw [if_neg hs,if_pos (h.behind hs).2]
    omega

theorem lineInv_init (linum : Nat) : LineInv p t n linum ⟨0,0,linum⟩ where
  count := by simp [newlines,recounts,stand]
  behind := fun h => absurd rfl h

theorem lineInv_step {k : Kmp} (hk : Prepared k p m) {linum : Nat} (hl : linum+2*n < 2^32)
    (s s' : KmpLoop) (h : SearchInv p t m n s ∧ LineInv p t n linum s)
    (hs : (kmpStep k t n s).val = some (.inl s')) :
    SearchInv p t m n s' ∧ LineInv p t n linum s' := by
  refine ⟨searchInv_step hk s s' h.1 hs,?_⟩
  by_cases ht : s.textPos < n
  · have hcount := h.2.countLine ht hl
    rcases kmpStep_cases hk t h.1.patPos ht with ⟨hover,-,hv⟩ | ⟨-,-,hv⟩ | ⟨hno,-,hv⟩
    · simp only [hv,Option.some.injEq,Sum.inl.injEq] at hs
      subst hs
      have hst : s.patPos = stand p (selfRun p) t s.textPos :=
        h.1.stands.resolve_right fun h0 => hover.2.1 h0.1
      have hne : ¬ 0 = stand p (selfRun p) t s.textPos := hst ▸ Ne.symm hover.2.1
      refine ⟨?_,fun _ => ⟨ht,hst ▸ hover⟩⟩
      simp only
      rw [hcount,h.2.count,if_pos hst,if_neg hne]
      rfl
    · simp [hv] at hs
    · rw [hv] at hs
      simp only [Option.map_eq_some_iff,incInt_eq_some,Sum.inl.injEq] at hs
      obtain ⟨j,⟨rfl,-⟩,rfl⟩ := hs
      refine ⟨?_,fun hne => absurd h.1.next hne⟩
      simp only
      rw [hcount,h.2.read hno,if_pos h.1.next]
      rfl
  · simp [kmpStep_exit k t ht] at hs

/-- Where the search stops reading: behind the match, or at the end of the text. -/
def KmpRet.stop (r : KmpRet) (m n : Nat) : Nat := if r.found = true then r.matchpos+m else n

/-- The line number a search leaves: each newline it has read counts once, and once
more if the search started over at it. -/
theorem kmpMatch_linum_eq {k : Kmp} (hk : Prepared k p m) {linum : Nat} {r : KmpRet}
    (hl : linum+2*n < 2^32) (hr : (kmpMatch k t n linum).val = some r) :
    r.linum = linum + newlines t (r.stop m n) + recounts p t (r.stop m n) := by
  obtain ⟨s,hreach,hexit⟩ := Run.loop_exit hr
  obtain ⟨hs,hi⟩ := hreach.invariant (lineInv_step hk hl)
    ⟨searchInv_init hk.pos linum,lineInv_init linum⟩
  have htn := hs.textPos
  by_cases ht : s.textPos < n
  · have hag := (stand_agree (p := p) (t := t) (fun _ => selfRun_border p) (s.textPos+1)).1
    rcases kmpStep_cases hk t hs.patPos ht with ⟨-,-,hv⟩ | ⟨hno,hadv,hv⟩ | ⟨-,-,hv⟩
    · simp [hv] at hexit
    · rw [hs.next] at hadv
      rw [hv,matchpos_eq (by omega) hs.small] at hexit
      simp only [Option.some.injEq,Sum.inr.injEq] at hexit
      have hstop : r.stop m n = s.textPos+1 := by
        rw [← hexit,KmpRet.stop,if_pos rfl]
        simp only
        omega
      rw [hstop,← hi.read hno,← hi.countLine ht hl,← hexit]
    · rw [hv] at hexit
      simp at hexit
  · simp only [kmpStep_exit k t ht,Option.some.injEq,Sum.inr.injEq] at hexit
    have hend : s.patPos = stand p (selfRun p) t s.textPos := by
      by_contra hne
      exact ht (hi.behind hne).1
    obtain rfl : n = s.textPos := by omega
    rw [← hexit,KmpRet.stop,if_neg (by simp),← Nat.add_zero (_ + _ + _)]
    rw [hi.count,if_pos hend]

theorem kmpMatch_linum {k : Kmp} (hk : Prepared k p m) {linum : Nat} {r : KmpRet}
    (hl : linum+2*n < 2^32) (hr : (kmpMatch k t n linum).val = some r) (hf : r.found = true) :
    linum ≤ r.linum ∧ r.linum ≤ linum+2*(r.matchpos+m) := by
  have heq := kmpMatch_linum_eq hk hl hr
  rw [KmpRet.stop,if_pos hf] at heq
  have := newlines_le t (r.matchpos+m)
  have := recounts_le p t (r.matchpos+m)
  omega

end SSearcher
