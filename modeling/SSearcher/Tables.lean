import SSearcher.MatchSpec
set_option autoImplicit false

/-! The failure table of one thread over any sequence of kmp_prepare, kmp_match and
kmp_finish: once allocated it is kept, whatever pattern comes next. -/
namespace SSearcher
open Runs Matching

inductive KmpCall where
  | prepare : Ptr → Nat → KmpCall
  | kmatch : Ptr → Nat → Nat → KmpCall
  | finish : KmpCall

def KmpCall.exec (k : Kmp) : KmpCall → Prog Kmp
  | .prepare pattern len => kmpPrepare k pattern len
  | .kmatch text len linum => do
    let _ ← kmpMatch k text len linum
    return k
  | .finish => return kmpFinish k

/-- A property of the state before each call, up to the first that does not return. -/
def Along (P : Kmp → KmpCall → Prop) : Kmp → List KmpCall → Prop
  | _,[] => True
  | k,c::cs => P k c ∧ ∀ k', (c.exec k).val = some k' → Along P k' cs

def Kmp.entries (k : Kmp) : Option Nat := k.kmpTable.map Table.entries

def KmpCall.entries (k : Kmp) : KmpCall → Nat
  | .prepare _ len => k.entries.getD len
  | _ => k.entries.getD 0

def InTable (entries : Nat) (e : Event) : Prop :=
  ∀ i, e = .load .table i ∨ e = .store .table i → i < entries

def KmpCall.Safe (k : Kmp) (c : KmpCall) : Prop := Run.Only (InTable (c.entries k)) (c.exec k)

def KmpCall.ready (r : Bool) : KmpCall → Bool
  | .prepare _ _ => true
  | .kmatch _ _ _ => r
  | .finish => false

def KmpCall.searches : KmpCall → Bool
  | .kmatch _ _ _ => true
  | _ => false

/-- Every kmp_match comes after a kmp_prepare, with no kmp_finish in between. -/
def Ordered : Bool → List KmpCall → Prop
  | _,[] => True
  | r,c::cs => (c.searches = true → r = true) ∧ Ordered (c.ready r) cs

/-- The table has an entry for each pattern byte, and the one that is always stored. -/
def KmpCall.Roomy (k : Kmp) : KmpCall → Prop
  | .prepare _ len => max 1 len ≤ k.entries.getD len
  | _ => True

/-- A text searched for the empty pattern does not hold the byte behind it. -/
def KmpCall.Quiet (k : Kmp) : KmpCall → Prop
  | .kmatch text len _ => k.patLen = 0 → ∀ i, i < len → text i ≠ k.pat 0
  | _ => True

def KmpCall.Fits (k : Kmp) (c : KmpCall) : Prop := c.Roomy k ∧ c.Quiet k

variable {p t : Ptr} {m n : Nat} {k k' : Kmp}

theorem kmpPrepare_kept (h : (kmpPrepare k p m).val = some k') :
    k'.pat = p ∧ k'.patLen = m ∧ k'.entries = some (k.entries.getD m) := by
  obtain ⟨_,-,h⟩ := Run.bind_eq_some.mp h
  obtain ⟨_,-,h⟩ := Run.bind_eq_some.mp h
  cases h
  refine ⟨rfl,rfl,?_⟩
  cases hk : k.kmpTable <;> simp [Kmp.entries,hk]

theorem prepareStep_some {s : PrepareLoop} (hlt : s.i < m) (hsmall : s.i+1 < 2^31) :
    ∃ table, (prepareStep p m s).val = some (.inl ⟨s.i+1,table⟩) := by
  by_cases hc : p (s.table (s.i-1)) = p s.i <;>
    simp [prepareStep,hlt,hc,incInt_of_lt hsmall]

theorem prepareStep_none {s : PrepareLoop} (hlt : s.i < m) (hlarge : ¬ s.i+1 < 2^31) :
    (prepareStep p m s).val = none := by
  have hinc : (incInt s.i).val = none := by
    rw [incInt,if_neg hlarge]
    rfl
  by_cases hc : p (s.table (s.i-1)) = p s.i <;> simp [prepareStep,hlt,hc,hinc]

theorem prepareStep_small (s s' : PrepareLoop) (_ : s.i < 2^31)
    (hs : (prepareStep p m s).val = some (.inl s')) : s'.i < 2^31 := by
  by_cases hlt : s.i < m
  · by_cases hsmall : s.i+1 < 2^31
    · obtain ⟨table,hv⟩ := prepareStep_some (p := p) hlt hsmall
      rw [hv] at hs
      cases hs
      exact hsmall
    · rw [prepareStep_none hlt hsmall] at hs
      cases hs
  · rw [prepareStep_done hlt] at hs
    cases hs

theorem kmpPrepare_small (h : (kmpPrepare k p m).val = some k') : m < 2^31 := by
  obtain ⟨_,-,h⟩ := Run.bind_eq_some.mp h
  obtain ⟨table,hloop,-⟩ := Run.bind_eq_some.mp h
  obtain ⟨s,hr,hs⟩ := Run.loop_exit hloop
  have hsmall := hr.invariant (I := fun s => s.i < 2^31) prepareStep_small
    (show 1 < 2^31 by decide)
  by_contra hno
  by_cases hsucc : s.i+1 < 2^31
  · obtain ⟨_,hv⟩ := prepareStep_some (p := p) (m := m) (s := s) (by omega) hsucc
    rw [hv] at hs
    cases hs
  · rw [prepareStep_none (by omega) hsucc] at hs
    cases hs

theorem prepareLoop_stores {x fuel : Nat} {s : PrepareLoop} (hi : s.i ≤ x) (hx : x < m)
    (hsmall : x < 2^31) (hfuel : x-s.i < fuel) :
    .store .table x ∈ (Run.loop (prepareStep p m) fuel s).log := by
  induction fuel generalizing s with
  | zero => omega
  | succ fuel ih =>
    have hlt : s.i < m := by omega
    rcases Nat.eq_or_lt_of_le hi with rfl | hix
    · rw [Run.loop_succ]
      refine Run.mem_log_bind.mpr (.inl ?_)
      rw [prepareStep_log hlt]
      simp
    · obtain ⟨table,hv⟩ := prepareStep_some (p := p) hlt (by omega)
      rw [Run.loop_of_inl fuel hv]
      exact List.mem_append_right _ (ih hix (by simp only; omega))

theorem kmpPrepare_stores {x : Nat} (hx : x < max 1 m) (hsmall : x < 2^31) :
    .store .table x ∈ (kmpPrepare k p m).log := by
  rw [kmpPrepare]
  refine Run.mem_log_bind.mpr ?_
  by_cases h0 : x = 0
  · subst h0
    exact .inl (by simp)
  · refine .inr ⟨_,rfl,Run.mem_log_bind.mpr (.inl ?_)⟩
    exact prepareLoop_stores (by simp only; omega) (by omega) hsmall (by simp only; omega)

theorem InBounds.inTable {e : Nat} (h : m ≤ e) (ev : Event) (hev : InBounds m n ev) :
    InTable e ev := by
  rintro i (rfl | rfl)
  · exact Nat.lt_of_lt_of_le hev h
  · exact Nat.lt_of_lt_of_le hev h

theorem InTable.mono {e e' : Nat} (h : e ≤ e') (ev : Event) (hev : InTable e ev) :
    InTable e' ev := fun i hi => Nat.lt_of_lt_of_le (hev i hi) h

theorem kmpStep_quiet (hq : ∀ i, i < n → t i ≠ k.pat 0) {s : KmpLoop} (hs : s.patPos = 0) :
    Run.Only (InTable 0) (kmpStep k t n s) ∧
      ∀ s', (kmpStep k t n s).val = some (.inl s') → s'.patPos = 0 := by
  by_cases hlt : s.textPos < n
  · have hne := hq _ hlt
    constructor
    · intro e he
      simp [kmpStep,hlt,hs,hne,kmpSkip] at he
      rcases he with rfl | rfl | rfl <;> simp [InTable]
    · intro s' hv
      simp only [kmpStep,hlt,hs,if_true,Run.val_bind,val_load,Option.bind_some,hne,if_false,
        kmpSkip_val,Option.map_eq_some_iff] at hv
      obtain ⟨_,-,heq⟩ := hv
      cases heq
      rfl
  · simp [kmpStep,hlt,Run.Only]

theorem kmpMatch_quiet (hq : ∀ i, i < n → t i ≠ k.pat 0) (linum : Nat) :
    Run.Only (InTable 0) (kmpMatch k t n linum) :=
  Run.only_loop (I := fun s => s.patPos = 0) (fun _ s' hs hv => (kmpStep_quiet hq hs).2 s' hv)
    (fun _ hs => (kmpStep_quiet hq hs).1) rfl _

/-- A table that is there has room for the current pattern. -/
structure TableInv (r : Bool) (k : Kmp) : Prop where
  small : ∀ e, k.entries = some e → e < 2^31
  ready : r = true → ∃ e, k.entries = some e ∧ max 1 k.patLen ≤ e ∧
    (0 < k.patLen → Prepared k k.pat k.patLen)

theorem prepare_entries_small (hsmall : ∀ e, k.entries = some e → e < 2^31)
    (h : (kmpPrepare k p m).val = some k') : ∀ e, k'.entries = some e → e < 2^31 := by
  obtain ⟨-,-,he⟩ := kmpPrepare_kept h
  have hm := kmpPrepare_small h
  intro e heq
  rw [he,Option.some.injEq] at heq
  subst heq
  cases hk : k.entries with
  | none => exact hm
  | some e => exact hsmall e hk

theorem KmpCall.step {r : Bool} {c : KmpCall} (hi : TableInv r k)
    (ho : c.searches = true → r = true) (hf : c.Fits k) :
    c.Safe k ∧ ∀ k', (c.exec k).val = some k' → TableInv (c.ready r) k' := by
  obtain ⟨hroomy,hquiet⟩ := hf
  cases c with
  | prepare p m =>
    have hroom : max 1 m ≤ k.entries.getD m := hroomy
    constructor
    · rcases Nat.eq_zero_or_pos m with rfl | hm
      · intro e he
        simp [KmpCall.exec,kmpPrepare,Run.loop,prepareStep] at he
        subst he
        simp [InTable,KmpCall.entries]
        omega
      · exact (kmpPrepare_only k p hm 0).mono (InBounds.inTable (by simp [KmpCall.entries]; omega))
    · intro k' hv
      refine ⟨prepare_entries_small hi.small hv,fun _ => ?_⟩
      obtain ⟨hpat,hlen,he⟩ := kmpPrepare_kept hv
      refine ⟨_,he,by rw [hlen]; exact hroom,fun hpos => ?_⟩
      rw [hlen] at hpos
      obtain ⟨k₁,hv₁,hk₁⟩ := kmpPrepare_spec k p hpos (kmpPrepare_small hv)
      obtain rfl : k₁ = k' := Option.some.inj (hv₁.symm.trans hv)
      rw [hpat,hlen]
      exact hk₁
  | kmatch t n linum =>
    obtain ⟨e,he,hroom,hprep⟩ := hi.ready (ho rfl)
    have hentries : (KmpCall.kmatch t n linum).entries k = e := by simp [KmpCall.entries,he]
    constructor
    · rw [KmpCall.Safe,hentries]
      refine .bind ?_ fun _ _ => .pure _ _
      rcases Nat.eq_zero_or_pos k.patLen with h0 | hpos
      · exact (kmpMatch_quiet (hquiet h0) linum).mono (InTable.mono (Nat.zero_le e))
      · exact (kmpMatch_only (hprep hpos) t n linum).mono (InBounds.inTable (by omega))
    · intro k' hv
      obtain ⟨_,-,heq⟩ := Run.bind_eq_some.mp hv
      cases heq
      exact hi
  | finish =>
    refine ⟨.pure _ _,fun k' hv => ?_⟩
    cases hv
    exact ⟨by simp [kmpFinish,Kmp.entries],by simp [KmpCall.ready]⟩

theorem KmpCall.run {calls : List KmpCall} {r : Bool} (hi : TableInv r k) (ho : Ordered r calls)
    (h : Along KmpCall.Fits k calls) : Along KmpCall.Safe k calls := by
  induction calls generalizing k r with
  | nil => trivial
  | cons c cs ih =>
    obtain ⟨hsafe,hnext⟩ := KmpCall.step hi ho.1 h.1
    exact ⟨hsafe,fun k' hv => ih (hnext k' hv) ho.2 (h.2 k' hv)⟩

theorem KmpCall.roomy_of_safe {c : KmpCall} (hsmall : ∀ e, k.entries = some e → e < 2^31)
    (h : c.Safe k) : c.Roomy k := by
  cases c with
  | kmatch t n linum => trivial
  | finish => trivial
  | prepare p m =>
    have hstore : ∀ x, x < max 1 m → x < 2^31 → x < k.entries.getD m := fun x hx hx' =>
      h _ (kmpPrepare_stores hx hx') x (.inr rfl)
    by_contra hno
    have hlt : k.entries.getD m < max 1 m := Nat.not_le.mp hno
    cases he : k.entries with
    | none =>
      rw [he,Option.getD_none] at hlt hstore
      have := hstore 0 (by omega) (by decide)
      omega
    | some e =>
      rw [he,Option.getD_some] at hlt hstore
      have := hstore e hlt (hsmall e he)
      omega

theorem KmpCall.run_roomy {calls : List KmpCall} (hsmall : ∀ e, k.entries = some e → e < 2^31)
    (h : Along KmpCall.Safe k calls) : Along KmpCall.Roomy k calls := by
  induction calls generalizing k with
  | nil => trivial
  | cons c cs ih =>
    refine ⟨KmpCall.roomy_of_safe hsmall h.1,fun k' hv => ih ?_ (h.2 k' hv)⟩
    cases c with
    | prepare p m => exact prepare_entries_small hsmall hv
    | kmatch t n linum =>
      obtain ⟨_,-,heq⟩ := Run.bind_eq_some.mp hv
      cases heq
      exact hsmall
    | finish =>
      cases hv
      simp [kmpFinish,Kmp.entries]

/-- The table of a thread is large enough while every kmp_prepare finds room in it, and
only then. -/
theorem table_safe {calls : List KmpCall} (ho : Ordered false calls) :
    (Along KmpCall.Fits noKmp calls → Along KmpCall.Safe noKmp calls) ∧
    (Along KmpCall.Safe noKmp calls → Along KmpCall.Roomy noKmp calls) := by
  have hsmall : ∀ e, noKmp.entries = some e → e < 2^31 := by simp [noKmp,Kmp.entries]
  exact ⟨KmpCall.run ⟨hsmall,by simp⟩ ho,KmpCall.run_roomy hsmall⟩

theorem table_safe_ab : Along KmpCall.Safe noKmp [.prepare (ofList [97,98]) 2,
    .prepare (ofList [97]) 1,.kmatch (ofList [98,97]) 2 1,.finish] := by
  refine (table_safe (by simp [Ordered,KmpCall.searches,KmpCall.ready])).1 ?_
  refine ⟨⟨show max 1 2 ≤ 2 by decide,trivial⟩,fun k₁ h₁ => ⟨⟨?_,trivial⟩,fun k₂ h₂ => ⟨⟨trivial,fun h0 => ?_⟩,
    fun _ _ => ⟨⟨trivial,trivial⟩,fun _ _ => trivial⟩⟩⟩⟩
  · obtain ⟨-,-,he⟩ := kmpPrepare_kept h₁
    rw [KmpCall.Roomy,he]
    exact show max 1 1 ≤ 2 by decide
  · obtain ⟨-,hlen,-⟩ := kmpPrepare_kept h₂
    rw [hlen] at h0
    exact absurd h0 (by decide)

theorem empty_pattern_stored : ¬ ∀ calls, Ordered false calls →
    Along KmpCall.Safe noKmp calls := by
  intro h
  have hsafe := h [.prepare (ofList []) 0] (by simp [Ordered,KmpCall.searches])
  have hstore := hsafe.1 (.store .table 0) (kmpPrepare_stores (by decide) (by decide))
  exact Nat.not_lt_zero 0 (hstore 0 (.inr rfl))

end SSearcher
