import Mathlib.Algebra.BigOperators.Fin
import Mathlib.Tactic.Abel
import SSearcher.Custody
import SSearcher.System
set_option autoImplicit false

namespace SSearcher
open Function Custody

def FileInfo.pair (fi : FileInfo) : Nat × Nat := (fi.fd,fi.entry)

def Dispatcher.held : Dispatcher → Multiset (Nat × Nat)
  | .scanning i fd | .closing i fd => {(fd,i)}
  | .sending fi => {fi.pair}
  | _ => 0

def Pc.held : Pc → Multiset (Nat × Nat)
  | .unlocking (some fi) | .mapping fi | .dropping fi | .searching fi _ _ _ _ | .printing fi
  | .resetting fi | .unmapping fi => {fi.pair}
  | _ => 0

def Pc.left : Pc → Prop
  | .unlocking none | .leaving | .ended => True
  | _ => False

variable {W : Type}

def Sys.inPipe (g : Sys W) : Multiset (Nat × Nat) := Multiset.ofList (g.pipe.map FileInfo.pair)

section
variable [Fintype W]

def Sys.atWorkers (g : Sys W) : Multiset (Nat × Nat) := ∑ w, (g.worker w).pc.held

def Sys.allFinished (g : Sys W) : Multiset Nat := ∑ w, Multiset.ofList (g.finished w)

/-- Who has custody of the descriptors. -/
def Sys.ledger (g : Sys W) : Ledger Nat Nat :=
  ⟨g.dispatcher.held + g.inPipe + g.atWorkers,g.fds,Multiset.ofList g.opened,
    Multiset.ofList g.closed⟩

theorem Sys.ledger_held (g : Sys W) :
    g.ledger.held = g.dispatcher.held + g.inPipe + g.atWorkers := rfl

/-- Where the records are: in the pipe, held by a worker or finished. -/
def Sys.places (g : Sys W) : Multiset Nat :=
  g.inPipe.map Prod.snd + g.atWorkers.map Prod.snd + g.allFinished

end

def Dispatcher.Opened : Dispatcher → Nat → Prop
  | .next n,i | .opening n,i => i < n
  | .scanning n _,i | .closing n _,i => i ≤ n
  | .sending fi,i => i ≤ fi.entry
  | _,_ => True

def Dispatcher.Sent : Dispatcher → Nat → Prop
  | .next n,i | .opening n,i | .scanning n _,i | .closing n _,i => i < n
  | .sending fi,i => i < fi.entry
  | _,_ => True

variable {opt : Options} {file : Nat → Option Entry}

theorem Work.held {x y : Worker × Shared} (h : Work opt file x y) :
    y.1.pc.held = x.1.pc.held ∧ (y.1.pc.left → x.1.pc.left) := by
  cases h with
  | start hpc _ _ => simp [hpc,Pc.held,Pc.left]
  | mapEmpty hpc _ _ => simp [hpc,Pc.held,Pc.left]
  | map hpc _ _ => simp [hpc,Pc.held,Pc.left]
  | found hpc _ => simp [hpc,Pc.held,Pc.left]
  | notFound hpc _ => simp [hpc,Pc.held,Pc.left]
  | print hpc _ _ => simp [hpc,Pc.held,Pc.left]
  | nothing hpc _ => simp [hpc,Pc.held,Pc.left]
  | reset hpc _ => simp [hpc,Pc.held,Pc.left]
  | leave hpc => simp [hpc,Pc.held,Pc.left]

section
variable [DecidableEq W] {g g' : Sys W} {tr : Trie} {entries : List Entry}

theorem Step.opened (h : Step opt tr entries g g')
    (hb : ∀ i, i ∈ g.opened → g.dispatcher.Opened i) (i : Nat) (hi : i ∈ g'.opened) :
    g'.dispatcher.Opened i := by
  cases h with
  | endOfTree _ _ => trivial
  | skip hd _ _ | openFails hd _ _ =>
    have hlt := hb i hi
    rw [hd] at hlt
    exact Nat.lt_succ_of_lt hlt
  | visit hd _ _ | binary _ hd _ _ | text _ hd _ _ _ =>
    have hlt := hb i hi
    rw [hd] at hlt
    exact hlt
  | opens hd _ _ _ =>
    rcases List.mem_cons.mp hi with rfl | hi
    · exact Nat.le_refl _
    · have hlt := hb i hi
      rw [hd] at hlt
      exact Nat.le_of_lt hlt
  | closeBinary hd | send hd =>
    have hle := hb i hi
    rw [hd] at hle
    exact Nat.lt_succ_of_le hle
  | closeEnd _ => trivial
  | _ => exact hb i hi

theorem Step.sent (h : Step opt tr entries g g')
    (hb : ∀ i, i ∈ g.sent → g.dispatcher.Sent i) (i : Nat) (hi : i ∈ g'.sent) :
    g'.dispatcher.Sent i := by
  cases h with
  | endOfTree _ _ => trivial
  | skip hd _ _ | openFails hd _ _ | closeBinary hd =>
    have hlt := hb i hi
    rw [hd] at hlt
    exact Nat.lt_succ_of_lt hlt
  | visit hd _ _ | binary _ hd _ _ | text _ hd _ _ _ | opens hd _ _ _ =>
    have hlt := hb i hi
    rw [hd] at hlt
    exact hlt
  | send hd =>
    rcases List.mem_cons.mp hi with rfl | hi
    · exact Nat.lt_succ_self _
    · have hlt := hb i hi
      rw [hd] at hlt
      exact Nat.lt_succ_of_lt hlt
  | closeEnd _ => trivial
  | _ => exact hb i hi

theorem Step.writeOpen (h : Step opt tr entries g g')
    (hw : g.writeOpen = false → g.dispatcher = .ended) :
    g'.writeOpen = false → g'.dispatcher = .ended := by
  intro hclosed
  cases h with
  | endOfTree hd _ | skip hd _ _ | visit hd _ _ | openFails hd _ _ | opens hd _ _ _
  | binary _ hd _ _ | text _ hd _ _ _ | closeBinary hd | send hd =>
    have hended := hw hclosed
    rw [hd] at hended
    cases hended
  | closeEnd _ => rfl
  | _ => exact hw hclosed

theorem left_update {w : W} {x : Worker} {P : Prop} (hx : x.pc.left → P)
    (h : ∀ v, (g.worker v).pc.left → P) (v : W) : (update g.worker w x v).pc.left → P := by
  rcases eq_or_ne v w with rfl | hne
  · rw [update_self]
    exact hx
  · rw [update_of_ne hne]
    exact h v

/-- A worker only leaves when nothing can come any more. -/
theorem Step.left (h : Step opt tr entries g g')
    (hw : g.writeOpen = false → g.dispatcher = .ended)
    (hl : ∀ w, (g.worker w).pc.left → g.writeOpen = false ∧ g.pipe = []) (v : W) :
    (g'.worker v).pc.left → g'.writeOpen = false ∧ g'.pipe = [] := by
  cases h with
  | send hd =>
    intro hv
    have hended := hw (hl v hv).1
    rw [hd] at hended
    cases hended
  | closeEnd _ => exact fun hv => ⟨rfl,(hl v hv).2⟩
  | lock _ _ | unlock _ | drop _ | unmap _ => exact left_update False.elim hl v
  | receive _ hp =>
    refine left_update False.elim (fun v hv => ?_) v
    have hempty := (hl v hv).2
    rw [hp] at hempty
    cases hempty
  | endOfPipe _ hp hclosed => exact left_update (fun _ => ⟨hclosed,hp⟩) hl v
  | @breaks w hpc => exact left_update (fun _ => hl w (by rw [hpc]; trivial)) hl v
  | @work w x s hwork => exact left_update (fun hx => hl w (hwork.held.2 hx)) hl v
  | _ => exact hl v

end

variable [Fintype W]

/-- What one step moves: custody, and the places of the records. -/
structure Moves (g g' : Sys W) : Prop where
  ledger : (∀ i, i ∈ g.opened → g.dispatcher.Opened i) → Move g.ledger g'.ledger
  places : (g'.places = g.places ∧ g'.sent = g.sent) ∨
    ∃ fi, g.dispatcher = .sending fi ∧ g'.places = fi.entry ::ₘ g.places ∧
      g'.sent = fi.entry :: g.sent

variable {g g' : Sys W}

theorem Moves.of_eq (hl : g'.ledger = g.ledger) (hp : g'.places = g.places)
    (hs : g'.sent = g.sent) : Moves g g' :=
  ⟨fun _ => .stay hl,.inl ⟨hp,hs⟩⟩

theorem moves_dispatcher {d : Dispatcher} (b : Bool) (h : d.held = g.dispatcher.held) :
    Moves g { g with dispatcher := d,writeOpen := b } := by
  refine .of_eq ?_ rfl rfl
  change (⟨d.held + g.inPipe + g.atWorkers,_,_,_⟩ : Ledger Nat Nat) = _
  rw [h]
  rfl

theorem moves_opens {i fd : Nat} (hd : g.dispatcher = .opening i) (hfd : g.fds fd = none) :
    Moves g { g with
      dispatcher := .scanning i fd,fds := update g.fds fd (some i),opened := i :: g.opened } := by
  refine ⟨fun hb => .take fd i hfd (fun hi => ?_) ?_,.inl ⟨rfl,rfl⟩⟩
  · have hlt := hb i hi
    rw [hd] at hlt
    exact Nat.lt_irrefl i hlt
  · change (⟨{(fd,i)} + g.inPipe + g.atWorkers,_,_,_⟩ : Ledger Nat Nat) = _
    have hheld : g.ledger.held = 0 + g.inPipe + g.atWorkers := by
      rw [Sys.ledger_held,hd]
      rfl
    rw [hheld,← Multiset.singleton_add,zero_add,add_assoc]
    rfl

theorem moves_closeBinary {i fd : Nat} (hd : g.dispatcher = .closing i fd) :
    Moves g { g.close fd with dispatcher := .next (i+1) } := by
  refine ⟨fun _ => .drop (fd,i) ?_ rfl rfl rfl,.inl ⟨rfl,rfl⟩⟩
  change _ = (fd,i) ::ₘ (0 + g.inPipe + g.atWorkers)
  rw [Sys.ledger_held,hd,← Multiset.singleton_add,zero_add,← add_assoc]
  rfl

theorem moves_send {fi : FileInfo} (hd : g.dispatcher = .sending fi) :
    Moves g { g with
      dispatcher := .next (fi.entry+1),pipe := g.pipe ++ [fi],sent := fi.entry :: g.sent } := by
  have hpipe : Multiset.ofList ((g.pipe ++ [fi]).map FileInfo.pair) = g.inPipe + {fi.pair} := by
    rw [List.map_append]
    rfl
  refine ⟨fun _ => .stay ?_,.inr ⟨fi,hd,?_,rfl⟩⟩
  · change (⟨0 + Multiset.ofList ((g.pipe ++ [fi]).map FileInfo.pair) + g.atWorkers,_,_,_⟩ :
      Ledger Nat Nat) = _
    have hheld : g.ledger.held = {fi.pair} + g.inPipe + g.atWorkers := by
      rw [Sys.ledger_held,hd]
      rfl
    rw [hpipe,zero_add,add_comm g.inPipe,← hheld]
    rfl
  · change (Multiset.ofList ((g.pipe ++ [fi]).map FileInfo.pair)).map Prod.snd + _ + _ = _
    rw [hpipe,Multiset.map_add,Multiset.map_singleton,Sys.places,← Multiset.singleton_add]
    change g.inPipe.map Prod.snd + {fi.entry} + g.atWorkers.map Prod.snd + g.allFinished = _
    abel

/-- What holds in every state of the process. -/
structure Sys.Inv (g : Sys W) : Prop where
  sound : Sound g.ledger
  opened : ∀ i, i ∈ g.opened → g.dispatcher.Opened i
  sent : ∀ i, i ∈ g.sent → g.dispatcher.Sent i
  nodup : g.sent.Nodup
  placed : g.places = Multiset.ofList g.sent
  writeOpen : g.writeOpen = false → g.dispatcher = .ended
  left : ∀ w, (g.worker w).pc.left → g.writeOpen = false ∧ g.pipe = []

theorem Sys.inv_init : (initialSys W).Inv where
  sound := by
    have hworkers : (initialSys W).atWorkers = 0 := Finset.sum_const_zero
    rw [Sys.ledger,hworkers]
    exact sound_init
  opened := fun _ hi => (List.not_mem_nil hi).elim
  sent := fun _ hi => (List.not_mem_nil hi).elim
  nodup := List.nodup_nil
  placed := by
    have hworkers : (initialSys W).atWorkers = 0 := Finset.sum_const_zero
    have hfinished : (initialSys W).allFinished = 0 := Finset.sum_const_zero
    rw [Sys.places,hworkers,hfinished]
    rfl
  writeOpen := fun h => by cases h
  left := fun _ h => h.elim

theorem Sys.atWorkers_ended (hended : ∀ w, (g.worker w).pc = .ended) : g.atWorkers = 0 :=
  Finset.sum_eq_zero fun w _ => by rw [hended w]; rfl

theorem Sys.Inv.finished (hi : g.Inv) (hended : ∀ w, (g.worker w).pc = .ended)
    (hpipe : g.pipe = []) : g.allFinished = Multiset.ofList g.sent := by
  rw [← hi.placed,Sys.places,g.atWorkers_ended hended,Sys.inPipe,hpipe]
  exact (zero_add _).symm

theorem Sys.mem_atWorkers {w : W} {fi : FileInfo} (hw : (g.worker w).pc.held = {fi.pair}) :
    fi.pair ∈ g.atWorkers :=
  Multiset.mem_sum.mpr ⟨w,Finset.mem_univ w,by rw [hw]; exact Multiset.mem_singleton_self _⟩

theorem Sys.Inv.sent_of_held (hi : g.Inv) {w : W} {fi : FileInfo}
    (hw : (g.worker w).pc.held = {fi.pair}) : fi.entry ∈ g.sent := by
  have hplace : fi.entry ∈ g.places := by
    rw [Sys.places]
    simp only [Multiset.mem_add]
    exact .inl (.inr (Multiset.mem_map_of_mem Prod.snd (Sys.mem_atWorkers hw)))
  rw [hi.placed] at hplace
  exact hplace

theorem Sys.Inv.open_of_held (hi : g.Inv) {w : W} {fi : FileInfo}
    (hw : (g.worker w).pc.held = {fi.pair}) : g.fds fi.fd = some fi.entry :=
  hi.sound.current fi.pair (Multiset.mem_add.mpr (.inr (Sys.mem_atWorkers hw)))

variable [DecidableEq W]

theorem Sys.atWorkers_setPc (g : Sys W) (w : W) (pc : Pc) :
    (g.setPc w pc).atWorkers + (g.worker w).pc.held = g.atWorkers + pc.held :=
  sum_update (fun x : Worker => x.pc.held) g.worker w { g.worker w with pc }

theorem Sys.allFinished_finish (g : Sys W) (w : W) (fi : FileInfo) :
    (g.finish w fi).allFinished = fi.entry ::ₘ g.allFinished := by
  have hsum := sum_update (fun l : List Nat => Multiset.ofList l) g.finished w
    (fi.entry :: g.finished w)
  have hcons : Multiset.ofList (fi.entry :: g.finished w) =
      {fi.entry} + Multiset.ofList (g.finished w) := rfl
  rw [hcons,← add_assoc] at hsum
  rw [← Multiset.singleton_add,add_comm]
  exact add_right_cancel hsum

theorem atWorkers_same {w : W} {pc : Pc} (h : pc.held = (g.worker w).pc.held) :
    (g.setPc w pc).atWorkers = g.atWorkers := by
  have hsum := g.atWorkers_setPc w pc
  rw [h] at hsum
  exact add_right_cancel hsum

theorem moves_worker {w : W} {pc : Pc} (m : Option W) (h : pc.held = (g.worker w).pc.held) :
    Moves g { g.setPc w pc with readmtx := m } := by
  have hsame := atWorkers_same h
  refine .of_eq ?_ ?_ rfl
  · change (⟨_ + (g.setPc w pc).atWorkers,_,_,_⟩ : Ledger Nat Nat) = _
    rw [hsame]
    rfl
  · change _ + (g.setPc w pc).atWorkers.map Prod.snd + _ = _
    rw [hsame]
    rfl

theorem moves_receive {w : W} {fi : FileInfo} {rest : List FileInfo}
    (hw : (g.worker w).pc = .reading) (hp : g.pipe = fi :: rest) :
    Moves g { g.setPc w (.unlocking (some fi)) with pipe := rest } := by
  have hsum := g.atWorkers_setPc w (.unlocking (some fi))
  rw [hw] at hsum
  change (g.setPc w (.unlocking (some fi))).atWorkers + 0 = g.atWorkers + {fi.pair} at hsum
  rw [add_zero] at hsum
  have hpipe : g.inPipe = {fi.pair} + Multiset.ofList (rest.map FileInfo.pair) := by
    rw [Sys.inPipe,hp]
    rfl
  refine .of_eq ?_ ?_ rfl
  · change (⟨g.dispatcher.held + Multiset.ofList (rest.map FileInfo.pair) +
      (g.setPc w (.unlocking (some fi))).atWorkers,_,_,_⟩ : Ledger Nat Nat) = _
    have hheld : g.dispatcher.held + Multiset.ofList (rest.map FileInfo.pair) +
        (g.atWorkers + {fi.pair}) = g.ledger.held := by
      rw [Sys.ledger_held,hpipe]
      abel
    rw [hsum,hheld]
    rfl
  · change (Multiset.ofList (rest.map FileInfo.pair)).map Prod.snd +
      (g.setPc w (.unlocking (some fi))).atWorkers.map Prod.snd + g.allFinished = _
    rw [hsum,Sys.places,hpipe,Multiset.map_add,Multiset.map_add]
    abel

theorem moves_work {w : W} {x : Worker} {s : Shared} (h : x.pc.held = (g.worker w).pc.held) :
    Moves g { g with worker := update g.worker w x,shared := s } := by
  have hsame : ∑ v, (update g.worker w x v).pc.held = g.atWorkers := by
    have hsum := sum_update (fun x : Worker => x.pc.held) g.worker w x
    rw [h] at hsum
    exact add_right_cancel hsum
  refine .of_eq ?_ ?_ rfl
  · change (⟨_ + ∑ v, (update g.worker w x v).pc.held,_,_,_⟩ : Ledger Nat Nat) = _
    rw [hsame]
    rfl
  · change _ + (∑ v, (update g.worker w x v).pc.held).map Prod.snd + _ = _
    rw [hsame]
    rfl

theorem moves_close {w : W} {fi : FileInfo} (hw : (g.worker w).pc.held = {fi.pair}) :
    Moves g (((g.setPc w .locking).close fi.fd).finish w fi) := by
  have hsum := g.atWorkers_setPc w .locking
  rw [hw] at hsum
  change (g.setPc w .locking).atWorkers + {fi.pair} = g.atWorkers + 0 at hsum
  rw [add_zero] at hsum
  have hfin := (g.setPc w .locking).allFinished_finish w fi
  refine ⟨fun _ => .drop fi.pair ?_ rfl rfl rfl,.inl ⟨?_,rfl⟩⟩
  · change _ = fi.pair ::ₘ (g.dispatcher.held + g.inPipe + (g.setPc w .locking).atWorkers)
    rw [Sys.ledger_held,← hsum,← Multiset.singleton_add]
    abel
  · change g.inPipe.map Prod.snd + (g.setPc w .locking).atWorkers.map Prod.snd +
      ((g.setPc w .locking).finish w fi).allFinished = _
    have hat : g.atWorkers.map Prod.snd =
        (g.setPc w .locking).atWorkers.map Prod.snd + {fi.entry} := by
      rw [← hsum,Multiset.map_add,Multiset.map_singleton]
      rfl
    rw [hfin,Sys.places,hat,← Multiset.singleton_add]
    change _ + _ + ({fi.entry} + g.allFinished) = _
    abel

variable {tr : Trie} {entries : List Entry}

theorem Step.moves (h : Step opt tr entries g g') : Moves g g' := by
  cases h with
  | endOfTree hd _ => exact moves_dispatcher g.writeOpen (by rw [hd]; rfl)
  | skip hd _ _ => exact moves_dispatcher g.writeOpen (by rw [hd]; rfl)
  | visit hd _ _ => exact moves_dispatcher g.writeOpen (by rw [hd]; rfl)
  | openFails hd _ _ => exact moves_dispatcher g.writeOpen (by rw [hd]; rfl)
  | opens hd _ _ hfd => exact moves_opens hd hfd
  | binary _ hd _ _ => exact moves_dispatcher g.writeOpen (by rw [hd]; rfl)
  | text _ hd _ _ _ => exact moves_dispatcher g.writeOpen (by rw [hd]; rfl)
  | closeBinary hd => exact moves_closeBinary hd
  | send hd => exact moves_send hd
  | closeEnd hd => exact moves_dispatcher false (by rw [hd]; rfl)
  | lock hw _ => exact moves_worker _ (by rw [hw]; rfl)
  | receive hw hp => exact moves_receive hw hp
  | endOfPipe hw _ _ => exact moves_worker g.readmtx (by rw [hw]; rfl)
  | unlock hw => exact moves_worker _ (by rw [hw]; rfl)
  | breaks hw => exact moves_worker _ (by rw [hw]; rfl)
  | work hw => exact moves_work hw.held.1
  | drop hw => exact moves_close (by rw [hw]; rfl)
  | unmap hw => exact moves_close (by rw [hw]; rfl)

theorem Sys.Inv.step (hi : g.Inv) (h : Step opt tr entries g g') : g'.Inv where
  sound := hi.sound.move (h.moves.ledger hi.opened)
  opened := h.opened hi.opened
  sent := h.sent hi.sent
  nodup := by
    rcases h.moves.places with ⟨_,hs⟩ | ⟨fi,hd,_,hs⟩
    · exact hs ▸ hi.nodup
    · rw [hs]
      refine List.nodup_cons.mpr ⟨fun hmem => ?_,hi.nodup⟩
      have hlt := hi.sent _ hmem
      rw [hd] at hlt
      exact Nat.lt_irrefl _ hlt
  placed := by
    rcases h.moves.places with ⟨hp,hs⟩ | ⟨fi,_,hp,hs⟩
    · rw [hp,hs,hi.placed]
    · rw [hp,hs,hi.placed]
      rfl
  writeOpen := h.writeOpen hi.writeOpen
  left := h.left hi.writeOpen hi.left

theorem Reachable.inv (h : Reachable opt tr entries g) : g.Inv := by
  induction h with
  | refl => exact Sys.inv_init
  | tail _ hstep ih => exact ih.step hstep

theorem reachable_sent (opt : Options) {tr : Trie} {e : Entry} {magicBuf : Ptr}
    (hskip : e.skipped = false) (hopen : e.opens = true)
    (htext : (magicScan tr e.bytes magicBuf).2 = false) :
    ∃ g : Sys (Fin 2), Reachable opt tr [e] g ∧ g.sent = [0] ∧ g.pipe = [⟨3,e.ftsPath,0⟩] ∧
      g.fds 3 = some 0 ∧ g.readmtx = none ∧ g.worker = (initialSys (Fin 2)).worker ∧
      g.shared = (initialSys (Fin 2)).shared := by
  have hvisit : Reachable opt tr [e] { initialSys (Fin 2) with dispatcher := .opening 0 } :=
    Relation.ReflTransGen.refl.tail (.visit rfl rfl hskip)
  have hopens := hvisit.tail (@Step.opens _ _ opt tr [e] _ 0 3 e rfl rfl hopen rfl)
  have htext := hopens.tail (.text magicBuf rfl rfl htext rfl)
  exact ⟨_,htext.tail (.send rfl),rfl,rfl,rfl,rfl,rfl,rfl⟩

def Sys.Ended (g : Sys W) : Prop := g.dispatcher = .ended ∧ ∀ w, (g.worker w).pc = .ended

/-- With two workers, in every order of the steps: a record that was sent is in one
place, in the pipe, at a worker or finished by one; whoever holds a descriptor holds it
open on its own entry; a worker leaves its loop when the pipe is empty and the dispatcher
has closed its end; and when all threads have ended each file sent was taken by one
worker, once, and each descriptor opened was closed once. -/
theorem handover {g : Sys (Fin 2)} (h : Reachable opt tr entries g) :
    (∀ i, i ∈ g.sent → g.places.count i = 1) ∧
    (∀ r, r ∈ g.ledger.held → g.fds r.1 = some r.2) ∧
    (∀ w, (g.worker w).pc.left → g.pipe = [] ∧ g.dispatcher = .ended) ∧
    (g.Ended →
      (∀ i, i ∈ g.sent → ∃ w, (g.finished w).count i = 1 ∧ ∀ v, v ≠ w → i ∉ g.finished v) ∧
      ∀ i, i ∈ g.opened → g.closed.count i = 1) := by
  have hi := h.inv
  refine ⟨fun i hsent => ?_,hi.sound.current,fun w hw => ?_,fun hended => ⟨fun i hsent => ?_,?_⟩⟩
  · rw [hi.placed,Multiset.coe_count]
    exact List.count_eq_one_of_mem hi.nodup hsent
  · obtain ⟨hclosed,hpipe⟩ := hi.left w hw
    exact ⟨hpipe,hi.writeOpen hclosed⟩
  · have hpipe := (hi.left 0 (by rw [hended.2 0]; trivial)).2
    have hall := congrArg (Multiset.count i) (hi.finished hended.2 hpipe)
    rw [Sys.allFinished,Fin.sum_univ_two,Multiset.count_add,Multiset.coe_count,
      Multiset.coe_count,Multiset.coe_count,List.count_eq_one_of_mem hi.nodup hsent] at hall
    by_cases h0 : (g.finished 0).count i = 0
    · refine ⟨1,by omega,fun v hv => ?_⟩
      obtain rfl : v = 0 := by omega
      exact List.count_eq_zero.mp h0
    · refine ⟨0,by omega,fun v hv => ?_⟩
      obtain rfl : v = 1 := by omega
      exact List.count_eq_zero.mp (by omega)
  · intro i hopened
    have hpipe := (hi.left 0 (by rw [hended.2 0]; trivial)).2
    have hheld : g.ledger.held = 0 := by
      rw [Sys.ledger_held,hended.1,g.atWorkers_ended hended.2,Sys.inPipe,hpipe]
      rfl
    have hcount := hi.sound.settled hheld hopened
    rwa [Sys.ledger,Multiset.coe_count] at hcount

theorem handover_empty : ∃ g : Sys (Fin 2), Reachable ⟨ofList [97],1,false⟩
    (.node false fun _ => none) [⟨[97],[97],true,true,[],by decide⟩] g ∧
    g.sent = [0] ∧ g.places.count 0 = 1 := by
  have hskip : (⟨[97],[97],true,true,[],by decide⟩ : Entry).skipped = false := by decide
  have htext : (magicScan (.node false fun _ => none) [] fun _ => 0).2 = false := rfl
  obtain ⟨g,h,hs,-⟩ := reachable_sent ⟨ofList [97],1,false⟩ hskip rfl htext
  exact ⟨g,h,hs,(handover h).1 0 (by rw [hs]; exact List.mem_singleton_self 0)⟩

end SSearcher
