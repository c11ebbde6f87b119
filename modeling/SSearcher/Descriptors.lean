import SSearcher.Ending
set_option autoImplicit false

namespace SSearcher
open Runs Memory Custody Function Relation

variable {W : Type} [DecidableEq W] {opt : Options} {tr : Trie} {entries : List Entry}
  {g g' : Sys W} {cap : Nat}

def Sys.openFds (g : Sys W) : Set Nat := {fd | g.fds fd ≠ none}

section
variable [Fintype W]

theorem Reachable.covered (h : Reachable opt tr entries g) : Covered g.ledger := by
  induction h with
  | refl => exact fun k i hk => by cases hk
  | tail hg hstep ih => exact ih.move (hstep.moves.ledger (Reachable.inv hg).opened)

theorem Reachable.encard_openFds (h : Reachable opt tr entries g) : g.openFds.encard =
    (Multiset.card g.dispatcher.held + g.pipe.length + ∑ w, Multiset.card (g.worker w).pc.held :
      Nat) := by
  have hcard := Custody.encard_open h.inv.sound h.covered
  rw [Sys.ledger_held,Multiset.card_add,Multiset.card_add,Sys.inPipe,Multiset.coe_card,
    List.length_map,Sys.atWorkers,Multiset.card_sum] at hcard
  exact hcard

end

theorem Dispatcher.card_held_le (d : Dispatcher) : Multiset.card d.held ≤ 1 := by
  cases d <;> simp [Dispatcher.held]

theorem Pc.card_held_le (pc : Pc) : Multiset.card pc.held ≤ 1 := by
  cases pc with
  | unlocking fi => cases fi <;> simp [Pc.held]
  | _ => simp [Pc.held]

theorem Step.pipe_le (h : Step opt tr entries g g') : g'.pipe.length ≤ g.pipe.length+1 := by
  cases h with
  | send _ => simp
  | receive _ hp =>
    rw [hp]
    exact Nat.le_add_right_of_le (Nat.le_succ _)
  | _ => exact Nat.le_succ _

theorem pipe_le (h : ReflTransGen (StepIn cap opt tr entries) (initialSys W) g) :
    g.pipe.length ≤ cap := by
  induction h with
  | refl => exact Nat.zero_le cap
  | @tail g g' _ hstep ih =>
    have hle := hstep.1.pipe_le
    have hroom := hstep.2
    omega

theorem openFds_le [Fintype W] (h : ReflTransGen (StepIn cap opt tr entries) (initialSys W) g) :
    g.openFds.encard ≤ (cap + Fintype.card W + 1 : Nat) := by
  have hdispatcher := g.dispatcher.card_held_le
  have hpipe := pipe_le h
  have hworkers : ∑ w, Multiset.card (g.worker w).pc.held ≤ Fintype.card W * 1 :=
    Finset.sum_le_card_nsmul _ _ _ fun w _ => (g.worker w).pc.card_held_le
  rw [(reachable_of_stepIn h).encard_openFds]
  exact Nat.cast_le.mpr (by omega)

/-- A text file that the dispatcher sends to the workers. -/
structure IsText (tr : Trie) (e : Entry) (magicBuf : Ptr) : Prop where
  visit : e.skipped = false
  opens : e.opens = true
  text : (magicScan tr e.bytes magicBuf).2 = false

section
variable (opt cap) {e : Entry} {magicBuf : Ptr} {i n : Nat} {w : W}

theorem opens_one (he : IsText tr e magicBuf) (hl : g.Live) (hd : g.dispatcher = .next i)
    (hi : i < n) : ∃ fd g', ReflTransGen (StepIn cap opt tr (List.replicate n e)) g g' ∧
      g'.dispatcher = .scanning i fd ∧ g'.fds fd = some i ∧ g'.pipe = g.pipe ∧
      g'.worker = g.worker ∧ g'.readmtx = g.readmtx := by
  have hget : (List.replicate n e)[i]? = some e := List.getElem?_replicate_of_lt hi
  obtain ⟨fd,hfree⟩ := hl.free
  have hfd := hfree fd (Nat.le_refl fd)
  exact ⟨fd,_,.tail (.single (stepIn_of_le (.visit hd hget he.visit) (Nat.le_refl _)))
    (stepIn_of_le (.opens rfl hget he.opens hfd) (Nat.le_refl _)),rfl,update_self ..,rfl,rfl,rfl⟩

theorem sends_one (he : IsText tr e magicBuf) (hl : g.Live) (hd : g.dispatcher = .next i)
    (hi : i < n) (hroom : g.pipe.length < cap) :
    ∃ g', ReflTransGen (StepIn cap opt tr (List.replicate n e)) g g' ∧
      g'.dispatcher = .next (i+1) ∧ g'.pipe.length = g.pipe.length+1 ∧
      g'.worker = g.worker ∧ g'.readmtx = g.readmtx := by
  have hget : (List.replicate n e)[i]? = some e := List.getElem?_replicate_of_lt hi
  obtain ⟨fd,g₁,hg₁,hd₁,hfd,hpipe,hworker,hmtx⟩ := opens_one opt cap he hl hd hi
  have hfile : g₁.file (List.replicate n e) fd = some e := by rw [Sys.file,hfd]; exact hget
  refine ⟨_,.tail (.tail hg₁ (stepIn_of_le (.text magicBuf hd₁ hfile he.text hget)
    (Nat.le_refl _))) ⟨.send rfl,fun _ => ?_⟩,rfl,?_,hworker,hmtx⟩
  · change g₁.pipe.length < cap
    rwa [hpipe]
  · simp [hpipe]

/-- Where worker `w`, the pipe and readmtx are; the rest is as in `g`. -/
structure Beside (g g' : Sys W) (w : W) (pc : Pc) (pipe : List FileInfo) (mtx : Option W) :
    Prop where
  pc : (g'.worker w).pc = pc
  pipe : g'.pipe = pipe
  readmtx : g'.readmtx = mtx
  dispatcher : g'.dispatcher = g.dispatcher
  others : ∀ v, v ≠ w → g'.worker v = g.worker v

theorem takes_one (hopt : opt.Usable) {fi : FileInfo} (hw : g.worker w = (initialSys W).worker w)
    (hpipe : g.pipe = [fi]) (hmtx : g.readmtx = none) :
    ∃ g', ReflTransGen (StepIn cap opt tr entries) g g' ∧ Beside g g' w (.mapping fi) [] none := by
  have hpc : (g.worker w).pc = .starting := by rw [hw]; rfl
  have hkmp : (kmpPrepare (g.worker w).kmp opt.searchPattern opt.searchPatlen).val =
      some opt.kmp := by rw [hw]; exact opt.kmp_val hopt
  obtain ⟨g₁,h₁,hb₁⟩ : ∃ g₁, StepIn cap opt tr entries g g₁ ∧ Beside g g₁ w .locking [fi] none :=
    ⟨_,stepIn_of_le (.work (.start hpc rfl hkmp)) (Nat.le_refl _),by simp,hpipe,hmtx,rfl,
      fun v hv => update_of_ne hv ..⟩
  obtain ⟨g₂,h₂,hb₂⟩ : ∃ g₂, StepIn cap opt tr entries g₁ g₂ ∧
      Beside g g₂ w .reading [fi] (some w) :=
    ⟨_,stepIn_of_le (.lock hb₁.pc hb₁.readmtx) (Nat.le_refl _),by simp [Sys.setPc],hb₁.pipe,rfl,
      hb₁.dispatcher,fun v hv => (update_of_ne hv ..).trans (hb₁.others v hv)⟩
  obtain ⟨g₃,h₃,hb₃⟩ : ∃ g₃, StepIn cap opt tr entries g₂ g₃ ∧
      Beside g g₃ w (.unlocking (some fi)) [] (some w) :=
    ⟨_,stepIn_of_le (.receive hb₂.pc hb₂.pipe) (Nat.zero_le _),by simp [Sys.setPc],rfl,hb₂.readmtx,
      hb₂.dispatcher,fun v hv => (update_of_ne hv ..).trans (hb₂.others v hv)⟩
  refine ⟨_,.tail (.tail (.tail (.single h₁) h₂) h₃)
    (stepIn_of_le (.unlock hb₃.pc) (Nat.le_refl _)),by simp [Sys.setPc],hb₃.pipe,rfl,
    hb₃.dispatcher,fun v hv => (update_of_ne hv ..).trans (hb₃.others v hv)⟩

theorem workers_fill [Fintype W] (hopt : opt.Usable) (he : IsText tr e magicBuf) (hcap : 0 < cap)
    (s : Finset W) (hn : s.card ≤ n) :
    ∃ g : Sys W, ReflTransGen (StepIn cap opt tr (List.replicate n e)) (initialSys W) g ∧
      g.dispatcher = .next s.card ∧ g.pipe = [] ∧ g.readmtx = none ∧
      (∀ v, v ∈ s → Multiset.card (g.worker v).pc.held = 1) ∧
      ∀ v, v ∉ s → g.worker v = (initialSys W).worker v := by
  induction s using Finset.induction_on with
  | empty => exact ⟨_,.refl,rfl,rfl,rfl,by simp,fun _ _ => rfl⟩
  | insert w s hw ih =>
    rw [Finset.card_insert_of_notMem hw] at hn ⊢
    obtain ⟨g,hg,hd,hpipe,hmtx,hin,hout⟩ := ih (by omega)
    have hlive := (reachable_of_stepIn hg).live
    have hlt : s.card < n := by omega
    obtain ⟨g₁,hg₁,hd₁,hpipe₁,hworker,hmtx₁⟩ :=
      sends_one opt cap he hlive hd hlt (by rw [hpipe]; exact hcap)
    obtain ⟨fi,hfi⟩ := List.length_eq_one_iff.mp (hpipe₁.trans (by rw [hpipe]; rfl))
    have hfresh : g₁.worker w = (initialSys W).worker w := by rw [hworker]; exact hout w hw
    obtain ⟨g₂,hg₂,hb⟩ := takes_one opt cap hopt hfresh hfi (hmtx₁.trans hmtx)
    refine ⟨g₂,(hg.trans hg₁).trans hg₂,hb.dispatcher.trans hd₁,hb.pipe,hb.readmtx,
      fun v hv => ?_,fun v hv => ?_⟩
    · by_cases hvw : v = w
      · rw [hvw,hb.pc]
        rfl
      · rw [hb.others v hvw,hworker]
        exact hin v (Finset.mem_of_mem_insert_of_ne hv hvw)
    · rw [Finset.mem_insert,not_or] at hv
      rw [hb.others v hv.1,hworker]
      exact hout v hv.2

theorem pipe_fills [Fintype W] (he : IsText tr e magicBuf) {k : Nat}
    (hg : ReflTransGen (StepIn cap opt tr (List.replicate n e)) (initialSys W) g)
    (hd : g.dispatcher = .next i) (hpipe : g.pipe = []) (hk : k ≤ cap) (hn : i+k ≤ n) :
    ∃ g', ReflTransGen (StepIn cap opt tr (List.replicate n e)) (initialSys W) g' ∧
      g'.dispatcher = .next (i+k) ∧ g'.pipe.length = k ∧ g'.worker = g.worker := by
  induction k with
  | zero => exact ⟨g,hg,hd,by rw [hpipe]; rfl,rfl⟩
  | succ k ih =>
    obtain ⟨g₁,hg₁,hd₁,hpipe₁,hworker⟩ := ih (by omega) (by omega)
    have hlt : i+k < n := by omega
    obtain ⟨g₂,hg₂,hd₂,hpipe₂,hworker₂,-⟩ :=
      sends_one opt cap he (reachable_of_stepIn hg₁).live hd₁ hlt (by omega)
    exact ⟨g₂,hg₁.trans hg₂,hd₂,by omega,hworker₂.trans hworker⟩

end

/-- However many files the tree has, never more are open than the pipe has room for, one
for each worker and one for the dispatcher; and so many can be open. -/
theorem descriptors_bound [Fintype W] (htr : magicInit none = some tr) (hopt : opt.Usable)
    (hcap : 0 < cap) :
    (∀ entries (g : Sys W), ReflTransGen (StepIn cap opt tr entries) (initialSys W) g →
      g.openFds.encard ≤ (cap + Fintype.card W + 1 : Nat)) ∧
    ∃ entries, ∃ g : Sys W, ReflTransGen (StepIn cap opt tr entries) (initialSys W) g ∧
      g.openFds.encard = (cap + Fintype.card W + 1 : Nat) := by
  have he : IsText tr (entryOf [97,10] (by decide)) fun _ => 0 :=
    ⟨by decide,rfl,text_of_not_magic (words_of_magicInit htr) (List.prefix_refl [97,10])
      (by decide) (by decide)⟩
  refine ⟨fun entries g h => openFds_le h,
    List.replicate (Fintype.card W + cap + 1) (entryOf [97,10] (by decide)),?_⟩
  have hall : (Finset.univ : Finset W).card ≤ Fintype.card W + cap + 1 := by
    rw [Finset.card_univ,Nat.add_assoc]
    exact Nat.le_add_right _ _
  obtain ⟨g,hg,hd,hpipe,-,hin,-⟩ := workers_fill opt cap hopt he hcap Finset.univ hall
  rw [Finset.card_univ] at hd
  obtain ⟨g₁,hg₁,hd₁,hpipe₁,hworker₁⟩ :=
    pipe_fills opt cap he hg hd hpipe (Nat.le_refl cap) (Nat.le_succ _)
  obtain ⟨fd,g₂,hg₂,hd₂,-,hpipe₂,hworker₂,-⟩ :=
    opens_one opt cap he (reachable_of_stepIn hg₁).live hd₁ (Nat.lt_succ_self _)
  refine ⟨g₂,hg₁.trans hg₂,?_⟩
  have hworkers : ∑ w, Multiset.card (g₂.worker w).pc.held = Fintype.card W := by
    rw [hworker₂,hworker₁,Finset.sum_congr rfl hin,Finset.sum_const,Finset.card_univ]
    exact Nat.mul_one _
  rw [(reachable_of_stepIn (hg₁.trans hg₂)).encard_openFds,hd₂,hpipe₂,hpipe₁,hworkers]
  refine congrArg Nat.cast ?_
  change 1 + cap + Fintype.card W = _
  omega

theorem descriptors_bound_two : ∃ tr, magicInit none = some tr ∧ ∃ entries, ∃ g : Sys (Fin 2),
    ReflTransGen (StepIn 1 optionsA tr entries) (initialSys (Fin 2)) g ∧
      g.openFds.encard = (4 : Nat) := by
  obtain ⟨tr,hinit,-⟩ := magicInit_words
  exact ⟨tr,hinit,(descriptors_bound hinit optionsA_usable Nat.one_pos).2⟩

end SSearcher
