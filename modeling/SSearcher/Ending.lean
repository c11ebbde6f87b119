import SSearcher.Ranking
import SSearcher.Selection
import SSearcher.Output
set_option autoImplicit false

namespace SSearcher
open Function Custody Ranking

/-- Between the lock and the unlock of readmtx. -/
def Pc.Inside : Pc → Prop
  | .reading | .unlocking _ => True
  | _ => False

variable {W : Type} {opt : Options} {hopt : opt.Usable} {tr : Trie}
  {entries : List Entry} {g g' : Sys W}

def Sys.Locked (g : Sys W) : Prop := ∀ w, (g.worker w).pc.Inside ↔ g.readmtx = some w

theorem Work.outside {file : Nat → Option Entry} {x y : Worker × Shared}
    (h : Work opt file x y) : ¬ x.1.pc.Inside ∧ ¬ y.1.pc.Inside := by
  cases h with
  | start hpc _ _ => simp [hpc,Pc.Inside]
  | mapEmpty hpc _ _ => simp [hpc,Pc.Inside]
  | map hpc _ _ => simp [hpc,Pc.Inside]
  | found hpc _ => simp [hpc,Pc.Inside]
  | notFound hpc _ => simp [hpc,Pc.Inside]
  | print hpc _ _ => simp [hpc,Pc.Inside]
  | nothing hpc _ => simp [hpc,Pc.Inside]
  | reset hpc _ => simp [hpc,Pc.Inside]
  | leave hpc => simp [hpc,Pc.Inside]

/-- The write end is closed when the dispatcher has ended, and there is always a
descriptor that is not open. -/
structure Sys.Live (g : Sys W) : Prop where
  closed : g.dispatcher = .ended → g.writeOpen = false
  free : ∃ n, ∀ fd, n ≤ fd → g.fds fd = none

theorem Sys.Live.close (hl : g.Live) (fd : Nat) :
    ∃ n, ∀ k, n ≤ k → (g.close fd).fds k = none := by
  obtain ⟨n,hn⟩ := hl.free
  refine ⟨n,fun k hk => ?_⟩
  change update g.fds fd none k = none
  rcases eq_or_ne k fd with rfl | hne
  · rw [update_self]
  · rw [update_of_ne hne]
    exact hn k hk

theorem Sys.Tidy.file [Fintype W] (ht : g.Tidy opt hopt entries) (hi : g.Inv) {w : W}
    {fi : FileInfo} (hw : (g.worker w).pc.info = some fi) :
    ∃ e, entries[fi.entry]? = some e ∧ g.file entries fi.fd = some e := by
  obtain ⟨e,he,-⟩ := (ht.worker w).named fi hw
  have hfd := hi.open_of_held (Pc.held_of_info hw)
  refine ⟨e,he,?_⟩
  rw [Sys.file,hfd]
  exact he

variable [DecidableEq W]

theorem inside_update {w : W} {x : Worker} {m : Option W} (hx : x.pc.Inside ↔ m = some w)
    (h : ∀ v, v ≠ w → ((g.worker v).pc.Inside ↔ m = some v)) (v : W) :
    (update g.worker w x v).pc.Inside ↔ m = some v := by
  rcases eq_or_ne v w with rfl | hne
  · rw [update_self]
    exact hx
  · rw [update_of_ne hne]
    exact h v hne

theorem Sys.Locked.same {w : W} {x : Worker} (hl : g.Locked)
    (hx : x.pc.Inside ↔ (g.worker w).pc.Inside) (v : W) :
    (update g.worker w x v).pc.Inside ↔ g.readmtx = some v :=
  inside_update (hx.trans (hl w)) (fun v _ => hl v) v

theorem Sys.Locked.opened {w : W} {x : Worker} (hl : g.Locked) (hw : (g.worker w).pc.Inside)
    (hx : ¬ x.pc.Inside) (v : W) :
    (update g.worker w x v).pc.Inside ↔ (none : Option W) = some v := by
  refine inside_update (iff_of_false hx (by simp)) (fun v hne => ?_) v
  refine iff_of_false (fun hv => hne ?_) (by simp)
  exact Option.some.inj (((hl v).mp hv).symm.trans ((hl w).mp hw))

theorem Sys.Locked.step (hl : g.Locked) (h : Step opt tr entries g g') : g'.Locked := by
  cases h with
  | @lock w hpc hfree =>
    refine inside_update (iff_of_true trivial rfl) fun v hne => ?_
    rw [hl v,hfree]
    exact iff_of_false (by simp) fun he => hne (Option.some.inj he).symm
  | receive hpc _ | endOfPipe hpc _ _ => exact hl.same (iff_of_true trivial (by rw [hpc]; trivial))
  | unlock hpc | breaks hpc => exact hl.opened (by rw [hpc]; trivial) fun h => h
  | work hwork => exact hl.same (iff_of_false hwork.outside.2 hwork.outside.1)
  | drop hpc | unmap hpc => exact hl.same (iff_of_false (fun h => h) (by rw [hpc]; exact fun h => h))
  | _ => exact hl

theorem Reachable.locked (h : Reachable opt tr entries g) : g.Locked := by
  induction h with
  | refl => exact fun _ => iff_of_false (fun h => h) (by simp [initialSys])
  | tail _ hstep ih => exact ih.step hstep

/-- In every order of the steps readmtx keeps the read of the pipe to one worker: it is
taken exactly while its holder is inside, and no two workers are. -/
theorem mutual_exclusion (h : Reachable opt tr entries g) :
    (∀ w, g.readmtx = some w ↔ (g.worker w).pc.Inside) ∧
    ∀ v w, (g.worker v).pc.Inside → (g.worker w).pc.Inside → v = w := by
  have hl := h.locked
  refine ⟨fun w => (hl w).symm,fun v w hv hw => ?_⟩
  exact Option.some.inj (((hl v).mp hv).symm.trans ((hl w).mp hw))

theorem mutual_exclusion_reading : ∃ g : Sys (Fin 2), Reachable optionsA
    (.node false fun _ => none) [] g ∧ (g.worker 0).pc = .reading ∧ ¬ (g.worker 1).pc.Inside := by
  have hstart : Reachable optionsA (.node false fun _ => none) [] _ :=
    Relation.ReflTransGen.refl.tail (.work (w := (0 : Fin 2)) (.start rfl rfl
      (optionsA.kmp_val optionsA_usable)))
  have hlock := hstart.tail (.lock (w := (0 : Fin 2)) rfl rfl)
  refine ⟨_,hlock,rfl,fun hin => ?_⟩
  have hsame := (mutual_exclusion hlock).2 0 1 trivial hin
  exact absurd hsame (by decide)

theorem Sys.Live.step (hl : g.Live) (h : Step opt tr entries g g') : g'.Live := by
  cases h with
  | endOfTree _ _ | skip _ _ _ | visit _ _ _ | openFails _ _ _ | binary _ _ _ _ | text _ _ _ _ _
  | send _ => exact ⟨fun he => (by cases he),hl.free⟩
  | @opens i fd e _ _ _ _ =>
    obtain ⟨n,hn⟩ := hl.free
    refine ⟨fun he => (by cases he),max n (fd+1),fun k hk => ?_⟩
    change update g.fds fd (some i) k = none
    rw [update_of_ne (by omega)]
    exact hn k (by omega)
  | @closeBinary i fd _ => exact ⟨fun he => (by cases he),hl.close fd⟩
  | closeEnd _ => exact ⟨fun _ => rfl,hl.free⟩
  | @drop w fi _ => exact ⟨hl.closed,hl.close fi.fd⟩
  | @unmap w fi _ => exact ⟨hl.closed,hl.close fi.fd⟩
  | _ => exact ⟨hl.closed,hl.free⟩

theorem Reachable.live (h : Reachable opt tr entries g) : g.Live := by
  induction h with
  | refl => exact ⟨fun he => (by cases he),0,fun _ _ => rfl⟩
  | tail _ hstep ih => exact ih.step hstep

def Sys.Fit (opt : Options) (hopt : opt.Usable) (entries : List Entry) (g : Sys W) : Prop :=
  ∀ i, i ∈ g.sent → ∀ sc, scanOf opt hopt entries i = some sc →
    sc.Short ∧ (opt.listMatchingFiles = true ∨ sc.Printable)

/-- A write to a pipe that holds `cap` records blocks. -/
def StepIn (cap : Nat) (opt : Options) (tr : Trie) (entries : List Entry) (g g' : Sys W) : Prop :=
  Step opt tr entries g g' ∧ (g.pipe.length < g'.pipe.length → g.pipe.length < cap)

variable {cap : Nat}

theorem stepIn_of_le (h : Step opt tr entries g g') (hle : g'.pipe.length ≤ g.pipe.length) :
    StepIn cap opt tr entries g g' := ⟨h,fun hlt => absurd hle (Nat.not_le_of_lt hlt)⟩

theorem Sys.work_goes {w : W} {x : Worker} {s : Shared}
    (h : Work opt (g.file entries) (g.worker w,g.shared) (x,s)) :
    ∃ g', StepIn cap opt tr entries g g' := ⟨_,stepIn_of_le (.work h) (Nat.le_refl _)⟩

theorem Sys.dispatcher_goes [Fintype W] (hi : g.Inv) (hs : g.Selects tr entries) (hl : g.Live)
    (hd : g.dispatcher ≠ .ended) (hroom : ∀ fi, g.dispatcher = .sending fi → g.pipe.length < cap) :
    ∃ g', StepIn cap opt tr entries g g' := by
  have hknows := hs.knows
  cases hpos : g.dispatcher with
  | next i =>
    cases he : entries[i]? with
    | none => exact ⟨_,stepIn_of_le (.endOfTree hpos he) (Nat.le_refl _)⟩
    | some e =>
      cases hskip : e.skipped with
      | true => exact ⟨_,stepIn_of_le (.skip hpos he hskip) (Nat.le_refl _)⟩
      | false => exact ⟨_,stepIn_of_le (.visit hpos he hskip) (Nat.le_refl _)⟩
  | opening i =>
    rw [hpos] at hknows
    obtain ⟨e,he,-⟩ := hknows
    cases hopen : e.opens with
    | false => exact ⟨_,stepIn_of_le (.openFails hpos he hopen) (Nat.le_refl _)⟩
    | true =>
      obtain ⟨n,hn⟩ := hl.free
      exact ⟨_,stepIn_of_le (.opens hpos he hopen (hn n (Nat.le_refl n))) (Nat.le_refl _)⟩
  | scanning i fd =>
    rw [hpos] at hknows
    obtain ⟨e,he,-⟩ := hknows
    have hfile : g.file entries fd = some e := by
      have hcur := hi.sound.current (fd,i) (Multiset.mem_add.mpr (.inl (Multiset.mem_add.mpr
        (.inl (by rw [hpos]; exact Multiset.mem_singleton_self _)))))
      change g.fds fd = some i at hcur
      rw [Sys.file,hcur]
      exact he
    cases hscan : (magicScan tr e.bytes fun _ => 0).2 with
    | true => exact ⟨_,stepIn_of_le (.binary _ hpos hfile hscan) (Nat.le_refl _)⟩
    | false => exact ⟨_,stepIn_of_le (.text _ hpos hfile hscan he) (Nat.le_refl _)⟩
  | closing i fd => exact ⟨_,stepIn_of_le (.closeBinary hpos) (Nat.le_refl _)⟩
  | sending fi => exact ⟨_,.send hpos,fun _ => hroom fi hpos⟩
  | finishing => exact ⟨_,stepIn_of_le (.closeEnd hpos) (Nat.le_refl _)⟩
  | ended => exact absurd hpos hd

omit [DecidableEq W] in
theorem Sys.Tidy.printResult [Fintype W] (ht : g.Tidy opt hopt entries) (hi : g.Inv)
    (hfit : g.Fit opt hopt entries) {w : W} {fi : FileInfo}
    (hpc : (g.worker w).pc = .printing fi) :
    ∃ s, SSearcher.printResult opt fi (g.worker w).buffer = some s := by
  obtain ⟨sc,hsc,hwritten⟩ := ((ht.worker w).at hpc).buffer
  have hheld : (g.worker w).pc.held = {fi.pair} := by rw [hpc]; rfl
  obtain ⟨hshort,hprint⟩ := hfit fi.entry (hi.sent_of_held hheld) sc hsc
  rw [← scanOf_opt hsc] at hprint
  have hout := (hshort.printResult_iff fi hwritten).mpr hprint
  rw [scanOf_opt hsc] at hout
  exact ⟨_,hout⟩

theorem Sys.searching_goes [Fintype W] (hi : g.Inv) (ht : g.Tidy opt hopt entries)
    (hfit : g.Fit opt hopt entries) {w : W} {fi : FileInfo} {f : MappedFile}
    {startpos linum lastlinum : Nat}
    (hpc : (g.worker w).pc = .searching fi f startpos linum lastlinum) :
    ∃ g', StepIn cap opt tr entries g g' := by
  obtain ⟨hmap,l,hat⟩ := ((ht.worker w).at hpc).buffer
  have hkmp : (g.worker w).kmp = opt.kmp := ((ht.worker w).at hpc).table
  have hheld : (g.worker w).pc.held = {fi.pair} := by rw [hpc]; rfl
  have hsent := hi.sent_of_held hheld
  have hsize := (hfit fi.entry hsent _ (scanOf_eq hmap)).1.size
  obtain ⟨y,hy,-⟩ := Scan.step_total (hat g.shared.statics).inv (by omega)
  have hv : (matchStep opt (g.worker w).kmp f.fb f.size
      ⟨startpos,linum,lastlinum,g.shared.statics,(g.worker w).buffer⟩).val = some y := by
    rw [hkmp]
    exact hy
  cases y with
  | inl s => exact g.work_goes (.found hpc hv)
  | inr s => exact g.work_goes (.notFound hpc hv)

theorem Sys.worker_goes [Fintype W] (hi : g.Inv) (ht : g.Tidy opt hopt entries) (hl : g.Locked)
    (hfit : g.Fit opt hopt entries) {w : W} (hw : (g.worker w).pc ≠ .ended)
    (hfree : g.readmtx = none ∨ g.readmtx = some w) (hpipe : g.pipe = [] → g.writeOpen = false) :
    ∃ g', StepIn cap opt tr entries g g' := by
  have htidy := ht.worker w
  cases hpc : (g.worker w).pc with
  | starting =>
    have hkmp : (g.worker w).kmp = noKmp := (htidy.at hpc).table
    exact g.work_goes (.start hpc rfl (hkmp ▸ opt.kmp_val hopt))
  | locking =>
    have hnone : g.readmtx = none := by
      refine hfree.resolve_right fun hsome => ?_
      have hin := (hl w).mpr hsome
      rw [hpc] at hin
      exact hin
    exact ⟨_,stepIn_of_le (.lock hpc hnone) (Nat.le_refl _)⟩
  | reading =>
    cases hp : g.pipe with
    | nil => exact ⟨_,stepIn_of_le (.endOfPipe hpc hp (hpipe hp)) (Nat.le_refl _)⟩
    | cons fi rest =>
      refine ⟨_,stepIn_of_le (.receive hpc hp) ?_⟩
      rw [hp]
      exact Nat.le_succ _
  | unlocking fi =>
    cases fi with
    | none => exact ⟨_,stepIn_of_le (.breaks hpc) (Nat.le_refl _)⟩
    | some fi => exact ⟨_,stepIn_of_le (.unlock hpc) (Nat.le_refl _)⟩
  | mapping fi =>
    have hinfo : (g.worker w).pc.info = some fi := by rw [hpc]; rfl
    obtain ⟨e,-,he⟩ := ht.file hi hinfo
    cases hmap : mapFile e with
    | none => exact g.work_goes (.mapEmpty hpc he hmap)
    | some f => exact g.work_goes (.map hpc he hmap)
  | dropping fi => exact ⟨_,stepIn_of_le (.drop hpc) (Nat.le_refl _)⟩
  | searching fi f startpos linum lastlinum => exact Sys.searching_goes hi ht hfit hpc
  | printing fi =>
    obtain ⟨s,hout⟩ := ht.printResult hi hfit hpc
    by_cases hoff : (g.worker w).buffer.off = 0
    · exact g.work_goes (.nothing hpc hoff)
    · exact g.work_goes (.print hpc hoff hout)
  | resetting fi => exact g.work_goes (.reset hpc rfl)
  | unmapping fi => exact ⟨_,stepIn_of_le (.unmap hpc) (Nat.le_refl _)⟩
  | leaving => exact g.work_goes (.leave hpc)
  | ended => exact absurd hpc hw

/-- In every order of the steps, and however few records the pipe holds: as long as not
all threads have ended, one of them can go on. -/
theorem some_thread_goes [Fintype W] [Nonempty W] (hcap : 0 < cap)
    (h : Reachable opt tr entries g) (hfit : g.Fit opt hopt entries) (hended : ¬ g.Ended) :
    ∃ g', StepIn cap opt tr entries g g' := by
  have hi := h.inv
  have hl := h.locked
  have ht : g.Tidy opt hopt entries := h.tidy hfit
  by_cases hd : g.dispatcher ≠ .ended ∧ ∀ fi, g.dispatcher = .sending fi → g.pipe.length < cap
  · exact Sys.dispatcher_goes hi h.selects h.live hd.1 hd.2
  -- the dispatcher has ended or waits for a worker to take a record
  have hwaits : (∃ w, (g.worker w).pc ≠ .ended) ∧ (g.pipe = [] → g.writeOpen = false) := by
    by_cases hd' : g.dispatcher = .ended
    · exact ⟨not_forall.mp fun hall => hended ⟨hd',hall⟩,fun _ => h.live.closed hd'⟩
    · obtain ⟨fi,hsend,hfull⟩ : ∃ fi, g.dispatcher = .sending fi ∧ cap ≤ g.pipe.length := by
        by_contra hno
        exact hd ⟨hd',fun fi hfi => by by_contra hge; exact hno ⟨fi,hfi,by omega⟩⟩
      have hne : g.pipe ≠ [] := List.ne_nil_of_length_pos (by omega)
      refine ⟨⟨Classical.arbitrary W,fun hend => hd' ?_⟩,fun hnil => absurd hnil hne⟩
      exact hi.writeOpen (hi.left _ (by rw [hend]; trivial)).1
  obtain ⟨⟨w,hw⟩,hpipe⟩ := hwaits
  cases hm : g.readmtx with
  | none => exact Sys.worker_goes hi ht hl hfit hw (.inl hm) hpipe
  | some v =>
    have hin := (hl v).mpr hm
    refine Sys.worker_goes hi ht hl hfit (w := v) (fun hend => ?_) (.inr hm) hpipe
    rw [hend] at hin
    exact hin

/-- An upper bound for the steps that are left. -/
def fileSize (entries : List Entry) (i : Nat) : Nat := entries[i]?.elim 0 fun e => e.bytes.length

def recordRank (entries : List Entry) (i : Nat) : Nat := fileSize entries i + 8

def treeRank (entries : List Entry) (i : Nat) : Nat :=
  ((entries.drop i).map fun e => e.bytes.length + 12).sum

def Dispatcher.rank (entries : List Entry) : Dispatcher → Nat
  | .next i => treeRank entries i + 2
  | .opening i => treeRank entries (i+1) + recordRank entries i + 5
  | .scanning i _ => treeRank entries (i+1) + recordRank entries i + 4
  | .closing i _ => treeRank entries (i+1) + recordRank entries i + 3
  | .sending fi => treeRank entries (fi.entry+1) + recordRank entries fi.entry + 3
  | .finishing => 1
  | .ended => 0

def Pc.rank (entries : List Entry) : Pc → Nat
  | .starting => 5
  | .locking => 4
  | .reading => 3
  | .unlocking none => 2
  | .unlocking (some fi) => fileSize entries fi.entry + 10
  | .mapping fi => fileSize entries fi.entry + 9
  | .searching _ f startpos _ _ => f.size - startpos + 8
  | .printing _ => 7
  | .resetting _ => 6
  | .dropping _ | .unmapping _ => 5
  | .leaving => 1
  | .ended => 0

def pipeRank (entries : List Entry) (pipe : List FileInfo) : Nat :=
  (pipe.map fun fi => recordRank entries fi.entry).sum

def Sys.rank [Fintype W] (entries : List Entry) (g : Sys W) : Nat :=
  g.dispatcher.rank entries + pipeRank entries g.pipe + ∑ w, (g.worker w).pc.rank entries

theorem treeRank_succ {i : Nat} {e : Entry} (he : entries[i]? = some e) :
    treeRank entries i = treeRank entries (i+1) + recordRank entries i + 4 := by
  obtain ⟨hlt,rfl⟩ := List.getElem?_eq_some_iff.mp he
  rw [treeRank,treeRank,recordRank,fileSize,he,List.drop_eq_getElem_cons hlt,List.map_cons,
    List.sum_cons,Option.elim_some]
  omega

theorem pipeRank_append (pipe : List FileInfo) (fi : FileInfo) :
    pipeRank entries (pipe ++ [fi]) = pipeRank entries pipe + recordRank entries fi.entry := by
  rw [pipeRank,List.map_append,List.sum_append,List.map_singleton,List.sum_singleton]
  rfl

theorem pipeRank_cons (fi : FileInfo) (pipe : List FileInfo) :
    pipeRank entries (fi :: pipe) = recordRank entries fi.entry + pipeRank entries pipe := by
  rw [pipeRank,List.map_cons,List.sum_cons]
  rfl

theorem Work.rank_lt {file : Nat → Option Entry} {x y : Worker} {s s' : Shared}
    (h : Work opt file (x,s) (y,s')) (hx : x.Tidy opt hopt entries)
    (hfile : ∀ fi e, x.pc.info = some fi → file fi.fd = some e → entries[fi.entry]? = some e)
    (hshort : ∀ fi, x.pc.info = some fi → ∀ sc, scanOf opt hopt entries fi.entry = some sc →
      sc.Short) : y.pc.rank entries < x.pc.rank entries := by
  cases h with
  | start hpc _ _ =>
    rw [hpc]
    exact Nat.lt_succ_self _
  | mapEmpty hpc _ _ =>
    rw [hpc]
    simp only [Pc.rank]
    omega
  | @map _ _ fi e f hpc he hf =>
    have hsize : fileSize entries fi.entry = f.size := by
      rw [fileSize,hfile fi e (by rw [hpc]; rfl) he]
      rw [mapFile] at hf
      split at hf
      · cases hf
        rfl
      · cases hf
    rw [hpc]
    simp only [Pc.rank,hsize]
    omega
  | @found _ _ fi f startpos linum lastlinum t hpc hv =>
    have ht := hx.at hpc
    obtain ⟨hmap,l,hat⟩ := ht.buffer
    have hsize := (hshort fi (by rw [hpc]; rfl) _ (scanOf_eq hmap)).size
    have hkmp : x.kmp = opt.kmp := ht.table
    rw [hkmp] at hv
    obtain ⟨y,hy,hnext⟩ := Scan.step_total (hat s.statics).inv (by omega)
    obtain rfl : Sum.inl t = y := Option.some.inj (hv.symm.trans hy)
    have hlt := (hnext t rfl).2
    change f.size-t.startpos < f.size-startpos at hlt
    rw [hpc]
    simp only [Pc.rank]
    omega
  | notFound hpc _ =>
    rw [hpc]
    simp only [Pc.rank]
    omega
  | print hpc _ _ | nothing hpc _ | reset hpc _ | leave hpc =>
    rw [hpc]
    exact Nat.lt_succ_self _

omit [DecidableEq W] in
theorem rank_dispatcher [Fintype W] {d : Dispatcher} (h : d.rank entries < g.dispatcher.rank entries)
    (b : Bool) (t : Nat → Option Nat) (l l' : List Nat) :
    ({ g with dispatcher := d,writeOpen := b,fds := t,opened := l,closed := l' } : Sys W).rank
      entries < g.rank entries :=
  Nat.add_lt_add_right (Nat.add_lt_add_right h _) _

theorem rank_worker [Fintype W] (w : W) (x : Worker) (pipe : List FileInfo)
    (h : pipeRank entries pipe + x.pc.rank entries <
      pipeRank entries g.pipe + (g.worker w).pc.rank entries)
    (m : Option W) (s : Shared) (t : Nat → Option Nat) (l : List Nat) (l' : W → List Nat) :
    ({ g with
      pipe,readmtx := m,worker := update g.worker w x,shared := s,fds := t,closed := l,
      finished := l' } : Sys W).rank entries < g.rank entries := by
  have hsum : (∑ v, (update g.worker w x v).pc.rank entries) + (g.worker w).pc.rank entries =
      (∑ v, (g.worker v).pc.rank entries) + x.pc.rank entries :=
    sum_update (fun x : Worker => x.pc.rank entries) g.worker w x
  change g.dispatcher.rank entries + pipeRank entries pipe +
    ∑ v, (update g.worker w x v).pc.rank entries < _
  rw [Sys.rank]
  omega

theorem rank_pc [Fintype W] (w : W) (pc : Pc) (h : pc.rank entries < (g.worker w).pc.rank entries)
    (m : Option W) (t : Nat → Option Nat) (l : List Nat) (l' : W → List Nat) :
    ({ g.setPc w pc with readmtx := m,fds := t,closed := l,finished := l' } : Sys W).rank entries <
      g.rank entries :=
  rank_worker w { g.worker w with pc } g.pipe (Nat.add_lt_add_left h _) m g.shared t l l'

theorem rank_done [Fintype W] {w : W} {fi : FileInfo}
    (h : Pc.locking.rank entries < (g.worker w).pc.rank entries) :
    (((g.setPc w .locking).close fi.fd).finish w fi).rank entries < g.rank entries :=
  rank_pc w .locking h g.readmtx (update g.fds fi.fd none) ((g.fds fi.fd).toList ++ g.closed)
    (update g.finished w (fi.entry :: g.finished w))

omit [DecidableEq W] in
theorem rank_send [Fintype W] {fi : FileInfo} (hd : g.dispatcher = .sending fi) :
    ({ g with
      dispatcher := .next (fi.entry+1),pipe := g.pipe ++ [fi],sent := fi.entry :: g.sent } :
      Sys W).rank entries < g.rank entries := by
  change (Dispatcher.next (fi.entry+1)).rank entries + pipeRank entries (g.pipe ++ [fi]) + _ < _
  rw [pipeRank_append,Sys.rank,hd]
  simp only [Dispatcher.rank]
  omega

theorem rank_receive [Fintype W] {w : W} {fi : FileInfo} {rest : List FileInfo}
    (hpc : (g.worker w).pc = .reading) (hp : g.pipe = fi :: rest) :
    ({ g.setPc w (.unlocking (some fi)) with pipe := rest } : Sys W).rank entries <
      g.rank entries := by
  have hlt : pipeRank entries rest + (Pc.unlocking (some fi)).rank entries <
      pipeRank entries g.pipe + (g.worker w).pc.rank entries := by
    rw [hpc,hp,pipeRank_cons]
    simp only [Pc.rank,recordRank]
    omega
  exact rank_worker w { g.worker w with pc := .unlocking (some fi) } rest hlt g.readmtx g.shared
    g.fds g.closed g.finished

theorem rank_work [Fintype W] {w : W} {x : Worker} {s : Shared}
    (hwork : Work opt (g.file entries) (g.worker w,g.shared) (x,s)) (hi : g.Inv)
    (ht : g.Tidy opt hopt entries) (hfit : g.Fit opt hopt entries) :
    ({ g with worker := update g.worker w x,shared := s } : Sys W).rank entries <
      g.rank entries := by
  have hlt : x.pc.rank entries < (g.worker w).pc.rank entries := by
    refine hwork.rank_lt (ht.worker w) (fun fi e hinfo he => ?_) fun fi hinfo sc hsc => ?_
    · have hfd := hi.open_of_held (Pc.held_of_info hinfo)
      rw [Sys.file,hfd] at he
      exact he
    · exact (hfit _ (hi.sent_of_held (Pc.held_of_info hinfo)) sc hsc).1
  exact rank_worker w x g.pipe (Nat.add_lt_add_left hlt _) _ s _ _ _

/-- Every step spends something, so the rank is an upper bound for the steps left. -/
theorem Step.rank_lt [Fintype W] (h : Step opt tr entries g g') (hi : g.Inv)
    (ht : g.Tidy opt hopt entries) (hfit : g.Fit opt hopt entries) :
    g'.rank entries < g.rank entries := by
  cases h with
  | endOfTree hd _ =>
    refine rank_dispatcher ?_ _ _ _ _
    rw [hd]
    exact Nat.lt_of_lt_of_le (Nat.lt_succ_self 1) (Nat.le_add_left _ _)
  | skip hd he _ =>
    refine rank_dispatcher ?_ _ _ _ _
    rw [hd]
    simp only [Dispatcher.rank,treeRank_succ he]
    omega
  | visit hd he _ =>
    refine rank_dispatcher ?_ _ _ _ _
    rw [hd]
    simp only [Dispatcher.rank,treeRank_succ he]
    omega
  | openFails hd _ _ | opens hd _ _ _ | binary _ hd _ _ | text _ hd _ _ _ =>
    refine rank_dispatcher ?_ _ _ _ _
    rw [hd]
    simp only [Dispatcher.rank]
    omega
  | @closeBinary i fd hd =>
    have hlt : (Dispatcher.next (i+1)).rank entries < g.dispatcher.rank entries := by
      rw [hd]
      simp only [Dispatcher.rank]
      omega
    exact rank_dispatcher hlt _ _ _ _
  | send hd => exact rank_send hd
  | closeEnd hd =>
    refine rank_dispatcher ?_ _ _ _ _
    rw [hd]
    exact Nat.lt_succ_self 0
  | @lock w hpc _ => exact rank_pc w .reading (by rw [hpc]; exact Nat.lt_succ_self 3) _ _ _ _
  | receive hpc hp => exact rank_receive hpc hp
  | @endOfPipe w hpc _ _ =>
    exact rank_pc w (.unlocking none) (by rw [hpc]; exact Nat.lt_succ_self 2) _ _ _ _
  | @unlock w fi hpc =>
    exact rank_pc w (.mapping fi) (by rw [hpc]; exact Nat.lt_succ_self _) _ _ _ _
  | @breaks w hpc => exact rank_pc w .leaving (by rw [hpc]; exact Nat.lt_succ_self 1) _ _ _ _
  | drop hpc | unmap hpc => exact rank_done (by rw [hpc]; exact Nat.lt_succ_self 4)
  | work hwork => exact rank_work hwork hi ht hfit

theorem rank_init (W : Type) [Fintype W] (entries : List Entry) :
    (initialSys W).rank entries =
      (entries.map fun e => e.bytes.length + 12).sum + 2 + 5 * Fintype.card W := by
  have hworkers : ∑ w : W, ((initialSys W).worker w).pc.rank entries = 5 * Fintype.card W := by
    rw [Nat.mul_comm]
    exact Finset.sum_const _
  rw [Sys.rank,hworkers]
  rfl

/-- Each file that the dispatcher may hand over is short, and either only names are
printed or its written bytes are a string of the buffer. -/
def AllFit (opt : Options) (hopt : opt.Usable) (tr : Trie) (entries : List Entry) : Prop :=
  ∀ i, Chosen tr entries i → ∀ sc, scanOf opt hopt entries i = some sc →
    sc.Short ∧ (opt.listMatchingFiles = true ∨ sc.Printable)

theorem scanOf_lineA {n i : Nat} (hi : i < n) : scanOf optionsA optionsA_usable
    (List.replicate n (entryOf [97,10] (by decide))) i = some scanLineA := by
  rw [scanOf,List.getElem?_replicate,if_pos hi]
  rfl

theorem allFit_lineA (tr : Trie) (n : Nat) :
    AllFit optionsA optionsA_usable tr (List.replicate n (entryOf [97,10] (by decide))) := by
  rintro i ⟨e,he,-⟩ sc hsc
  have hlt := (List.getElem?_eq_some_iff.mp he).1
  rw [List.length_replicate] at hlt
  obtain rfl : scanLineA = sc := Option.some.inj ((scanOf_lineA hlt).symm.trans hsc)
  exact ⟨scanLineA_short,.inr scanLineA_printable⟩

theorem Reachable.fit [Fintype W] (h : Reachable opt tr entries g)
    (hall : AllFit opt hopt tr entries) : g.Fit opt hopt entries :=
  fun i hi => hall i (h.selects.only i hi)

theorem reachable_of_stepIn
    (h : Relation.ReflTransGen (StepIn cap opt tr entries) (initialSys W) g) :
    Reachable opt tr entries g := h.lift id fun _ _ hs => hs.1

theorem stepIn_lowers [Fintype W] (hall : AllFit opt hopt tr entries) :
    Lowers (StepIn cap opt tr entries) (initialSys W) (Sys.rank entries) := by
  intro s s' hs hstep
  have hr := reachable_of_stepIn hs
  exact hstep.1.rank_lt hr.inv (hr.tidy (hr.fit hall)) (hr.fit hall)

theorem ended_of_final [Fintype W] [Nonempty W] (hcap : 0 < cap)
    (hall : AllFit opt hopt tr entries)
    (hg : Relation.ReflTransGen (StepIn cap opt tr entries) (initialSys W) g)
    (hfinal : Final (StepIn cap opt tr entries) g) : g.Ended := by
  have hr := reachable_of_stepIn hg
  by_contra hno
  obtain ⟨g',hstep⟩ := some_thread_goes hcap hr (hr.fit hall) hno
  exact hfinal g' hstep

theorem exists_ended [Fintype W] [Nonempty W] (hcap : 0 < cap) (hall : AllFit opt hopt tr entries)
    (hg : Relation.ReflTransGen (StepIn cap opt tr entries) (initialSys W) g) :
    ∃ g', Relation.ReflTransGen (StepIn cap opt tr entries) g g' ∧ g'.Ended := by
  obtain ⟨g',hg',hfinal⟩ := (stepIn_lowers hall).exists_final hg
  exact ⟨g',hg',ended_of_final hcap hall (hg.trans hg') hfinal⟩

/-- However the threads are ordered and however few records the pipe holds, a run takes
at most so many steps, from every state the process can come to its end, and it only
stops when all threads have ended. -/
theorem process_ends [Fintype W] [Nonempty W] (hcap : 0 < cap)
    (hall : AllFit opt hopt tr entries) :
    (∀ n run, IsRun (StepIn cap opt tr entries) n run → run 0 = initialSys W →
      n ≤ (entries.map fun e => e.bytes.length + 12).sum + 2 + 5 * Fintype.card W) ∧
    ∀ g : Sys W, Relation.ReflTransGen (StepIn cap opt tr entries) (initialSys W) g →
      (Final (StepIn cap opt tr entries) g → g.Ended) ∧
      ∃ g', Relation.ReflTransGen (StepIn cap opt tr entries) g g' ∧ g'.Ended := by
  refine ⟨fun n run hrun h0 => ?_,
    fun g hg => ⟨ended_of_final hcap hall hg,exists_ended hcap hall hg⟩⟩
  rw [← rank_init]
  exact (stepIn_lowers hall).run_le hrun h0

theorem process_ends_a : ∃ tr, magicInit none = some tr ∧ ∃ g : Sys (Fin 2),
    Relation.ReflTransGen (StepIn 1 optionsA tr [entryOf [97,10] (by decide)])
      (initialSys (Fin 2)) g ∧ g.Ended := by
  obtain ⟨tr,hinit,-⟩ := magicInit_words
  exact ⟨tr,hinit,((process_ends Nat.one_pos (allFit_lineA tr 1)).2 _ .refl).2⟩

end SSearcher
