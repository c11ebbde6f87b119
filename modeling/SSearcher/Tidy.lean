import Mathlib.Algebra.Order.BigOperators.Group.Finset
import SSearcher.Handover
import SSearcher.Blocks
set_option autoImplicit false

namespace SSearcher
open Function Custody Memory

/-- A pattern that is not empty. Its length is an int. -/
def Options.Usable (opt : Options) : Prop := 0 < opt.searchPatlen ∧ opt.searchPatlen < 2^31

def Options.scan (opt : Options) (hopt : opt.Usable) (f : MappedFile) : Scan :=
  ⟨opt,f,hopt.1,hopt.2⟩

def Options.kmp (opt : Options) : Kmp :=
  ((kmpPrepare noKmp opt.searchPattern opt.searchPatlen).val).getD noKmp

def FileInfo.Named (entries : List Entry) (fi : FileInfo) : Prop :=
  ∃ e, entries[fi.entry]? = some e ∧ fi.filename = e.ftsPath

def Pc.info : Pc → Option FileInfo
  | .unlocking fi => fi
  | .mapping fi | .dropping fi | .searching fi _ _ _ _ | .printing fi | .resetting fi
  | .unmapping fi => some fi
  | _ => none

/-- The entries a worker has behind its print section, or will not search. -/
def Pc.past : Pc → Multiset Nat
  | .dropping fi | .resetting fi | .unmapping fi => {fi.entry}
  | _ => 0

def Pc.Table (opt : Options) : Pc → Kmp → Prop
  | .starting,k => k = noKmp
  | .ended,_ => True
  | _,k => k = opt.kmp

section
variable (opt : Options) (hopt : opt.Usable) (entries : List Entry)

/-- The search of an entry. An empty file is not searched. -/
def scanOf (i : Nat) : Option Scan := (entries[i]?.bind mapFile).map (opt.scan hopt)

def matched (i : Nat) : Bool := (scanOf opt hopt entries i).elim false fun sc => !sc.found.isEmpty

def blockOf (i : Nat) : List UInt8 := entries[i]?.elim [] fun e =>
  (scanOf opt hopt entries i).elim [] fun sc => sc.block e.ftsPath

def Pc.Holds : Pc → Buffer → Prop
  | .starting,_ | .resetting _,_ | .ended,_ => True
  | .searching fi f startpos linum lastlinum,b => entries[fi.entry]?.bind mapFile = some f ∧
      ∃ l, ∀ st, (opt.scan hopt f).At l ⟨startpos,linum,lastlinum,st,b⟩
  | .printing fi,b => ∃ sc, scanOf opt hopt entries fi.entry = some sc ∧
      Written (sc.pieces sc.found) (sc.needs sc.found) b
  | _,b => b.Empty

/-- Nothing of an earlier file is left in a worker. -/
structure Worker.Tidy (x : Worker) : Prop where
  named : ∀ fi, x.pc.info = some fi → fi.Named entries
  table : x.pc.Table opt x.kmp
  buffer : x.pc.Holds opt hopt entries x.buffer

end

variable {opt : Options} {hopt : opt.Usable} {entries : List Entry}

theorem scanOf_eq {i : Nat} {f : MappedFile} (h : entries[i]?.bind mapFile = some f) :
    scanOf opt hopt entries i = some (opt.scan hopt f) := by rw [scanOf,h]; rfl

theorem matched_eq {i : Nat} {sc : Scan} (h : scanOf opt hopt entries i = some sc) :
    matched opt hopt entries i = true ↔ sc.found ≠ [] := by
  have hempty : ∀ l : List (Nat × Nat), (!l.isEmpty) = true ↔ l ≠ [] := by simp
  rw [matched,h,Option.elim_some,hempty]

theorem Worker.Tidy.at {x : Worker} {pc : Pc} (h : x.Tidy opt hopt entries) (hpc : x.pc = pc) :
    (⟨pc,x.buffer,x.kmp⟩ : Worker).Tidy opt hopt entries := by
  subst hpc
  exact h

theorem Worker.Tidy.goes {x : Worker} {pc : Pc} (h : x.Tidy opt hopt entries)
    (hnamed : ∀ fi, pc.info = some fi → fi.Named entries) (htable : pc.Table opt = x.pc.Table opt)
    (hbuffer : pc.Holds opt hopt entries = x.pc.Holds opt hopt entries) :
    ({ x with pc } : Worker).Tidy opt hopt entries :=
  ⟨hnamed,htable ▸ h.table,hbuffer ▸ h.buffer⟩

theorem Work.tidy {file : Nat → Option Entry} {x y : Worker} {s s' : Shared}
    (h : Work opt file (x,s) (y,s')) (hx : x.Tidy opt hopt entries)
    (hfile : ∀ fi e, x.pc.info = some fi → file fi.fd = some e → entries[fi.entry]? = some e)
    (hshort : ∀ fi, x.pc.info = some fi → ∀ sc, scanOf opt hopt entries fi.entry = some sc →
      sc.Short) : y.Tidy opt hopt entries := by
  cases h with
  | start hpc hb hk =>
    refine ⟨fun _ h => (by cases h),?_,initBuffer_empty hb⟩
    have hkmp : x.kmp = noKmp := (hx.at hpc).table
    change _ = opt.kmp
    rw [Options.kmp,← hkmp,hk]
    rfl
  | mapEmpty hpc _ _ =>
    have ht := hx.at hpc
    exact ⟨ht.named,ht.table,ht.buffer⟩
  | @map _ _ fi e f hpc he hf =>
    have ht := hx.at hpc
    have hentry := hfile fi e (by rw [hpc]; rfl) he
    have hmap : entries[fi.entry]?.bind mapFile = some f := by rw [hentry]; exact hf
    have hsc := hshort fi (by rw [hpc]; rfl) _ (scanOf_eq hmap)
    exact ⟨ht.named,ht.table,hmap,[],fun st => Scan.at_init hsc st ht.buffer⟩
  | @found _ _ fi f startpos linum lastlinum t hpc hv =>
    have ht := hx.at hpc
    obtain ⟨hmap,l,hat⟩ := ht.buffer
    have hsc := hshort fi (by rw [hpc]; rfl) _ (scanOf_eq hmap)
    have hkmp : x.kmp = opt.kmp := ht.table
    rw [hkmp] at hv
    obtain ⟨r,hnext⟩ := (hat s.statics).next hsc hv
    exact ⟨ht.named,ht.table,hmap,l ++ [r],fun st => hnext.statics hsc st⟩
  | @notFound _ _ fi f startpos linum lastlinum t hpc hv =>
    have ht := hx.at hpc
    obtain ⟨hmap,l,hat⟩ := ht.buffer
    have hkmp : x.kmp = opt.kmp := ht.table
    rw [hkmp] at hv
    obtain ⟨hl,-⟩ := (hat s.statics).ends hv
    refine ⟨ht.named,ht.table,_,scanOf_eq hmap,?_⟩
    rw [← hl]
    exact (hat s.statics).written
  | print hpc _ _ => exact ⟨(hx.at hpc).named,(hx.at hpc).table,trivial⟩
  | nothing hpc _ => exact ⟨(hx.at hpc).named,(hx.at hpc).table,trivial⟩
  | reset hpc hb => exact ⟨(hx.at hpc).named,(hx.at hpc).table,initBuffer_empty hb⟩
  | leave hpc => exact ⟨fun _ h => (by cases h),trivial,trivial⟩

/-- What is printed while the entries behind the print section grow from `past` to
`past'`: the blocks of those with a match. -/
def Adds (opt : Options) (hopt : opt.Usable) (entries : List Entry) (past past' : Multiset Nat)
    (s s' : Shared) : Prop :=
  ∃ new : List Nat, s'.printed = s.printed ++ new ∧
    s'.output = s.output ++ new.flatMap (blockOf opt hopt entries) ∧
    past'.filter (matched opt hopt entries · = true) =
      Multiset.ofList new + past.filter (matched opt hopt entries · = true)

theorem Adds.none {past past' : Multiset Nat} {s s' : Shared} (hp : s'.printed = s.printed)
    (ho : s'.output = s.output) (h : past'.filter (matched opt hopt entries · = true) =
      past.filter (matched opt hopt entries · = true)) : Adds opt hopt entries past past' s s' :=
  ⟨[],by simp [hp],by simp [ho],by rw [h]; exact (zero_add _).symm⟩

theorem Adds.unmatched {i : Nat} {s : Shared} (h : ¬ matched opt hopt entries i = true) :
    Adds opt hopt entries 0 {i} s s := by
  refine .none rfl rfl ?_
  rw [Multiset.filter_singleton,if_neg h]
  rfl

theorem blockOf_eq {fi : FileInfo} {sc : Scan} (hnamed : fi.Named entries)
    (h : scanOf opt hopt entries fi.entry = some sc) :
    blockOf opt hopt entries fi.entry = sc.block fi.filename := by
  obtain ⟨e,he,hname⟩ := hnamed
  rw [blockOf,he,h,hname]
  rfl

theorem scanOf_opt {i : Nat} {sc : Scan} (h : scanOf opt hopt entries i = some sc) :
    sc.opt = opt := by
  obtain ⟨f,-,rfl⟩ := Option.map_eq_some_iff.mp h
  rfl

theorem Work.adds {file : Nat → Option Entry} {x y : Worker} {s s' : Shared}
    (h : Work opt file (x,s) (y,s')) (hx : x.Tidy opt hopt entries)
    (hfile : ∀ fi e, x.pc.info = some fi → file fi.fd = some e → entries[fi.entry]? = some e)
    (hfit : ∀ fi, x.pc.info = some fi → ∀ sc, scanOf opt hopt entries fi.entry = some sc →
      sc.Short ∧ (opt.listMatchingFiles = true ∨ sc.Printable)) :
    Adds opt hopt entries x.pc.past y.pc.past s s' := by
  cases h with
  | start hpc _ _ => exact .none rfl rfl (by rw [hpc]; rfl)
  | @mapEmpty _ _ fi e hpc he hnone =>
    have hentry := hfile fi e (by rw [hpc]; rfl) he
    have hscan : scanOf opt hopt entries fi.entry = Option.none := by
      rw [scanOf,hentry,Option.bind_some,hnone]
      rfl
    rw [hpc]
    refine .unmatched ?_
    rw [matched,hscan]
    exact Bool.false_ne_true
  | map hpc _ _ => exact .none rfl rfl (by rw [hpc]; rfl)
  | found hpc _ => exact .none rfl rfl (by rw [hpc]; rfl)
  | notFound hpc _ => exact .none rfl rfl (by rw [hpc]; rfl)
  | @print _ _ fi out hpc hoff hprint =>
    obtain ⟨sc,hsc,hw⟩ := (hx.at hpc).buffer
    obtain ⟨hshort,hfit⟩ := hfit fi (by rw [hpc]; rfl) sc hsc
    have hmatched : matched opt hopt entries fi.entry = true := by
      refine (matched_eq hsc).mpr fun hnil => hoff ?_
      rw [hw.off,hnil]
      rfl
    have hblock : out = blockOf opt hopt entries fi.entry := by
      rw [blockOf_eq ((hx.at hpc).named fi rfl) hsc]
      rw [← scanOf_opt hsc] at hfit hprint
      exact Option.some.inj (hprint.symm.trans ((hshort.printResult_iff fi hw).mpr hfit))
    refine ⟨[fi.entry],rfl,by simp [hblock],?_⟩
    rw [hpc]
    change Multiset.filter _ {fi.entry} = {fi.entry} + Multiset.filter _ 0
    rw [Multiset.filter_singleton,if_pos hmatched,Multiset.filter_zero,add_zero]
  | @nothing _ _ fi hpc hoff =>
    obtain ⟨sc,hsc,hw⟩ := (hx.at hpc).buffer
    rw [hpc]
    refine .unmatched fun hmatched => (matched_eq hsc).mp hmatched ?_
    rw [hw.off] at hoff
    exact Scan.pieces_eq_nil.mp (List.eq_nil_of_length_eq_zero hoff)
  | reset hpc _ => exact .none rfl rfl (by rw [hpc]; rfl)
  | leave hpc => exact .none rfl rfl (by rw [hpc]; rfl)

variable {W : Type}

section
variable [DecidableEq W] {g g' : Sys W} {tr : Trie}

theorem tidy_update {w : W} {x : Worker} (hx : x.Tidy opt hopt entries)
    (h : ∀ v, (g.worker v).Tidy opt hopt entries) (v : W) :
    (update g.worker w x v).Tidy opt hopt entries := by
  rcases eq_or_ne v w with rfl | hne
  · rwa [update_self]
  · rw [update_of_ne hne]
    exact h v

theorem Step.keeps_sent (h : Step opt tr entries g g') {i : Nat} (hi : i ∈ g.sent) :
    i ∈ g'.sent := by
  cases h with
  | send _ => exact List.mem_cons_of_mem _ hi
  | _ => exact hi

end

variable [Fintype W]

def Sys.past (g : Sys W) : Multiset Nat := (∑ w, (g.worker w).pc.past) + g.allFinished

theorem Sys.past_le (g : Sys W) : g.past ≤ g.places := by
  have hworker : ∀ pc : Pc, pc.past ≤ pc.held.map Prod.snd := by
    intro pc
    cases pc with
    | dropping fi | resetting fi | unmapping fi => exact le_refl ({fi.entry} : Multiset Nat)
    | _ => exact Multiset.zero_le _
  have hsum : g.atWorkers.map Prod.snd = ∑ w, (g.worker w).pc.held.map Prod.snd :=
    map_sum (Multiset.mapAddMonoidHom Prod.snd) _ _
  rw [Sys.past,Sys.places,hsum,add_assoc]
  exact le_add_of_nonneg_of_le (Multiset.zero_le _)
    (add_le_add_left (Finset.sum_le_sum fun w _ => hworker _) _)

/-- What holds in every state of the process while all files sent can be printed. -/
structure Sys.Tidy (opt : Options) (hopt : opt.Usable) (entries : List Entry) (g : Sys W) :
    Prop where
  sending : ∀ fi, g.dispatcher = .sending fi → fi.Named entries
  pipe : ∀ fi, fi ∈ g.pipe → fi.Named entries
  worker : ∀ w, (g.worker w).Tidy opt hopt entries
  output : g.shared.output = g.shared.printed.flatMap (blockOf opt hopt entries)
  printed : Multiset.ofList g.shared.printed =
    g.past.filter (matched opt hopt entries · = true)

theorem Sys.tidy_init : (initialSys W).Tidy opt hopt entries where
  sending := fun _ h => by cases h
  pipe := fun _ h => (List.not_mem_nil h).elim
  worker := fun _ => ⟨fun _ h => (by cases h),rfl,trivial⟩
  output := rfl
  printed := by
    have hworkers : ∑ w : W, ((initialSys W).worker w).pc.past = 0 := Finset.sum_const_zero
    have hfinished : (initialSys W).allFinished = 0 := Finset.sum_const_zero
    rw [Sys.past,hworkers,hfinished]
    rfl

theorem Pc.held_of_info {pc : Pc} {fi : FileInfo} (h : pc.info = some fi) :
    pc.held = {fi.pair} := by
  cases pc with
  | starting | locking | reading | leaving | ended => cases h
  | unlocking fi' =>
    obtain rfl : fi' = some fi := h
    rfl
  | mapping fi' | dropping fi' | searching fi' _ _ _ _ | printing fi' | resetting fi'
  | unmapping fi' =>
    obtain rfl := Option.some.inj h
    rfl

variable {g g' : Sys W}

theorem tidy_dispatcher {d : Dispatcher} (ht : g.Tidy opt hopt entries) {pipe : List FileInfo}
    (hd : ∀ fi, d = .sending fi → fi.Named entries) (hp : ∀ fi, fi ∈ pipe → fi.Named entries)
    (b : Bool) (t : Nat → Option Nat) (l l' l'' : List Nat) :
    ({ g with dispatcher := d,pipe,writeOpen := b,fds := t,opened := l,sent := l',closed := l'' } :
      Sys W).Tidy opt hopt entries :=
  ⟨hd,hp,ht.worker,ht.output,ht.printed⟩

variable [DecidableEq W] {tr : Trie}

theorem Sys.past_setPc {w : W} {pc : Pc} (h : pc.past = (g.worker w).pc.past) :
    (g.setPc w pc).past = g.past := by
  have hsum := sum_update (fun x : Worker => x.pc.past) g.worker w { g.worker w with pc }
  simp only [h] at hsum
  exact congrArg (· + g.allFinished) (add_right_cancel hsum)

theorem Sys.past_close {w : W} {fi : FileInfo} (hw : (g.worker w).pc.past = {fi.entry}) :
    (((g.setPc w .locking).close fi.fd).finish w fi).past = g.past := by
  have hsum := sum_update (fun x : Worker => x.pc.past) g.worker w
    { g.worker w with pc := .locking }
  have hfin := (g.setPc w .locking).allFinished_finish w fi
  simp only [hw] at hsum
  have hlock : Pc.locking.past = 0 := rfl
  rw [hlock,add_zero] at hsum
  change (∑ v, ((g.setPc w .locking).worker v).pc.past) +
    ((g.setPc w .locking).finish w fi).allFinished = _
  rw [hfin,← Multiset.singleton_add,← add_assoc,Sys.past,← hsum]
  rfl

theorem Sys.past_work {w : W} {x : Worker} {s : Shared} :
    ({ g with worker := update g.worker w x,shared := s } : Sys W).past + (g.worker w).pc.past =
      g.past + x.pc.past := by
  have hsum := sum_update (fun x : Worker => x.pc.past) g.worker w x
  rw [Sys.past,Sys.past,add_right_comm,hsum,add_right_comm]
  rfl

theorem tidy_setPc {w : W} {pc : Pc} (ht : g.Tidy opt hopt entries) (m : Option W)
    {pipe : List FileInfo} (hp : ∀ fi, fi ∈ pipe → fi.Named entries)
    (hnamed : ∀ fi, pc.info = some fi → fi.Named entries)
    (htable : pc.Table opt = (g.worker w).pc.Table opt)
    (hbuffer : pc.Holds opt hopt entries = (g.worker w).pc.Holds opt hopt entries)
    (hpast : pc.past = (g.worker w).pc.past) :
    ({ g.setPc w pc with readmtx := m,pipe } : Sys W).Tidy opt hopt entries :=
  ⟨ht.sending,hp,tidy_update ((ht.worker w).goes hnamed htable hbuffer) ht.worker,ht.output,
    ht.printed.trans (congrArg _ (Sys.past_setPc hpast).symm)⟩

theorem tidy_close {w : W} {fi : FileInfo} (ht : g.Tidy opt hopt entries)
    (htable : Pc.locking.Table opt = (g.worker w).pc.Table opt)
    (hbuffer : Pc.locking.Holds opt hopt entries = (g.worker w).pc.Holds opt hopt entries)
    (hpast : (g.worker w).pc.past = {fi.entry}) :
    (((g.setPc w .locking).close fi.fd).finish w fi).Tidy opt hopt entries :=
  ⟨ht.sending,ht.pipe,tidy_update ((ht.worker w).goes (fun _ h => by cases h) htable hbuffer)
    ht.worker,ht.output,ht.printed.trans (congrArg _ (Sys.past_close hpast).symm)⟩

theorem tidy_work {w : W} {x : Worker} {s : Shared} (ht : g.Tidy opt hopt entries) (hi : g.Inv)
    (h : Work opt (g.file entries) (g.worker w,g.shared) (x,s))
    (hfit : ∀ i, i ∈ g.sent → ∀ sc, scanOf opt hopt entries i = some sc →
      sc.Short ∧ (opt.listMatchingFiles = true ∨ sc.Printable)) :
    ({ g with worker := update g.worker w x,shared := s } : Sys W).Tidy opt hopt entries := by
  have hfile : ∀ fi e, (g.worker w).pc.info = some fi → g.file entries fi.fd = some e →
      entries[fi.entry]? = some e := by
    intro fi e hinfo he
    rwa [Sys.file,hi.open_of_held (Pc.held_of_info hinfo)] at he
  have hfit : ∀ fi, (g.worker w).pc.info = some fi → ∀ sc,
      scanOf opt hopt entries fi.entry = some sc →
      sc.Short ∧ (opt.listMatchingFiles = true ∨ sc.Printable) :=
    fun fi hinfo => hfit fi.entry (hi.sent_of_held (Pc.held_of_info hinfo))
  have hx := h.tidy (ht.worker w) hfile fun fi hinfo sc hsc => (hfit fi hinfo sc hsc).1
  obtain ⟨new,hprinted,houtput,hfilter⟩ := h.adds (ht.worker w) hfile hfit
  refine ⟨ht.sending,ht.pipe,tidy_update hx ht.worker,?_,?_⟩
  · change s.output = s.printed.flatMap _
    rw [houtput,hprinted,List.flatMap_append,ht.output]
  · have hpast := congrArg (Multiset.filter (matched opt hopt entries · = true))
      (g.past_work (w := w) (x := x) (s := s))
    rw [Multiset.filter_add,Multiset.filter_add,hfilter,← add_assoc] at hpast
    change Multiset.ofList s.printed = _
    rw [add_right_cancel hpast,← ht.printed,hprinted]
    rfl

theorem Sys.Tidy.step (ht : g.Tidy opt hopt entries) (hi : g.Inv)
    (h : Step opt tr entries g g')
    (hfit : ∀ i, i ∈ g.sent → ∀ sc, scanOf opt hopt entries i = some sc →
      sc.Short ∧ (opt.listMatchingFiles = true ∨ sc.Printable)) :
    g'.Tidy opt hopt entries := by
  cases h with
  | endOfTree _ _ | skip _ _ _ | visit _ _ _ | openFails _ _ _ | opens _ _ _ _ | binary _ _ _ _
  | closeBinary _ | closeEnd _ =>
    exact tidy_dispatcher ht (fun _ h => by cases h) ht.pipe _ _ _ _ _
  | @text i fd e e' _ _ _ _ he =>
    refine tidy_dispatcher ht (fun fi h => ?_) ht.pipe _ _ _ _ _
    obtain rfl := Dispatcher.sending.inj h
    exact ⟨e',he,rfl⟩
  | @send fi hd =>
    refine tidy_dispatcher ht (fun _ h => by cases h) (fun fi' h => ?_) _ _ _ _ _
    rcases List.mem_append.mp h with h | h
    · exact ht.pipe fi' h
    · obtain rfl := List.mem_singleton.mp h
      exact ht.sending _ hd
  | @lock w hw _ =>
    exact tidy_setPc ht _ ht.pipe (fun _ h => nomatch h) (by rw [hw]; rfl) (by rw [hw]; rfl)
      (by rw [hw]; rfl)
  | @receive w fi rest hw hp =>
    have hmem : ∀ fi', fi' ∈ fi :: rest → fi'.Named entries := hp ▸ ht.pipe
    refine tidy_setPc ht _ (fun fi' h => hmem fi' (List.mem_cons_of_mem _ h)) (fun fi' h => ?_)
      (by rw [hw]; rfl) (by rw [hw]; rfl) (by rw [hw]; rfl)
    obtain rfl := Option.some.inj h
    exact hmem _ List.mem_cons_self
  | @endOfPipe w hw _ _ =>
    exact tidy_setPc ht _ ht.pipe (fun _ h => nomatch h) (by rw [hw]; rfl) (by rw [hw]; rfl)
      (by rw [hw]; rfl)
  | @unlock w fi hw =>
    exact tidy_setPc ht _ ht.pipe (fun fi' h => (ht.worker w).named fi' (by rw [hw]; exact h))
      (by rw [hw]; rfl) (by rw [hw]; rfl) (by rw [hw]; rfl)
  | @breaks w hw =>
    exact tidy_setPc ht _ ht.pipe (fun _ h => nomatch h) (by rw [hw]; rfl) (by rw [hw]; rfl)
      (by rw [hw]; rfl)
  | work hwork => exact tidy_work ht hi hwork hfit
  | @drop w fi hw => exact tidy_close ht (by rw [hw]; rfl) (by rw [hw]; rfl) (by rw [hw]; rfl)
  | @unmap w fi hw => exact tidy_close ht (by rw [hw]; rfl) (by rw [hw]; rfl) (by rw [hw]; rfl)

theorem Reachable.tidy (h : Reachable opt tr entries g)
    (hfit : ∀ i, i ∈ g.sent → ∀ sc, scanOf opt hopt entries i = some sc →
      sc.Short ∧ (opt.listMatchingFiles = true ∨ sc.Printable)) :
    g.Tidy opt hopt entries := by
  induction h with
  | refl => exact Sys.tidy_init
  | tail hr hstep ih =>
    have hfit := fun i hi => hfit i (hstep.keeps_sent hi)
    exact (ih hfit).step (Reachable.inv hr) hstep hfit

end SSearcher
