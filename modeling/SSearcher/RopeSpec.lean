import SSearcher.Rings
import SSearcher.Rope
set_option autoImplicit false

namespace SSearcher
open Runs Memory Function Rings

/-- The list at `head` has the nodes `xs`, each in a block that has a list_head. -/
structure Listed (h : Heap) (head : Addr) (xs : List Addr) : Prop where
  ring : Ring h.next h.prev head xs
  live : ∀ x, x ∈ head::xs → hasList (h.block x) = true

def Heap.relink (h : Heap) (next prev : Addr → Addr) : Heap :=
  { h with next := next, prev := prev }

variable {h : Heap} {head buf n : Addr} {xs : List Addr}

theorem Heap.val_read {β : Type} {ok : Option Block → Bool} {field : Addr → β} {a : Addr}
    (hok : ok (h.block a) = true) : (h.read ok field a).val = some (field a) := by
  simp [read,hok]

theorem initListHead_ring (hlive : hasList (h.block head) = true) :
    ∃ next prev, (initListHead h head).val = some (h.relink next prev) ∧
      Ring next prev head [] := by
  refine ⟨update h.next head head,update h.prev head head,?_,ring_nil (by simp) (by simp)⟩
  simp [initListHead,setNext,setPrev,Heap.write,Heap.relink,hlive]

/-- The four stores of __list_add, between two neighbours that may be one node. -/
theorem listAddBetween_val {prev next : Addr} (hn : hasList (h.block n) = true)
    (hprev : hasList (h.block prev) = true) (hnext : hasList (h.block next) = true)
    (hpn : h.next prev = next) (hnp : h.prev next = prev) (hne : n ≠ next) :
    (listAddBetween h n prev next).val =
      some (h.relink (linkIn h.next n prev) (linkIn h.prev n next)) := by
  have hcomm : linkIn h.prev n next = update (update h.prev next n) n prev := by
    rw [linkIn,hnp,update_comm hne]
  rw [hcomm,linkIn,hpn]
  simp [listAddBetween,setNext,setPrev,Heap.write,Heap.relink,hn,hprev,hnext]

theorem listAddTail_ring (hl : Listed h head xs) (hn : hasList (h.block n) = true)
    (hnew : n ∉ head::xs) :
    ∃ next prev, (listAddTail h n head).val = some (h.relink next prev) ∧
      Ring next prev head (xs++[n]) := by
  have hhead := hl.live head List.mem_cons_self
  have hmem : h.prev head ∈ head::xs := by
    simpa using hl.ring.symm.next_mem (x := head) List.mem_cons_self
  refine ⟨_,_,?_,hl.ring.addBack hnew⟩
  simp only [listAddTail,getPrev,Run.val_bind,Heap.val_read hhead,Option.bind_some]
  exact listAddBetween_val hn (hl.live _ hmem) hhead (hl.ring.inverse List.mem_cons_self).2 rfl
    fun he => hnew (he ▸ List.mem_cons_self)

inductive ListOp where
  | add : Addr → ListOp
  | addTail : Addr → ListOp

def ListOp.node : ListOp → Addr
  | .add n | .addTail n => n

def ListOp.exec (h : Heap) (head : Addr) : ListOp → Heaped Heap
  | .add n => listAdd h n head
  | .addTail n => listAddTail h n head

def Write.blocks (w : Write) : List Addr := [w.str,w.rope]

/-- malloc answers with blocks that are not in use, and never with one twice. -/
structure Fresh (h : Heap) (ws : List Write) : Prop where
  free : ∀ a, a ∈ ws.flatMap Write.blocks → h.block a = none
  nodup : (ws.flatMap Write.blocks).Nodup

/-- The rope and the string of a call of buf_write, as the call left them. -/
structure Kept (h : Heap) (w : Write) : Prop where
  rope : h.block w.rope = some .rope
  str : h.block w.str = some .str
  pstr : h.pstr w.rope = w.str
  tag : h.tag w.rope = tagContext
  bytes : h.str w.str = strndup w.content (u32 w.len)

/-- The ropelist of `buf` is the ropes of `ws` in order. -/
structure Ropes (h : Heap) (buf : Addr) (ws : List Write) : Prop where
  head : h.block buf = some .head
  ring : Ring h.next h.prev buf (ws.map Write.rope)
  kept : ∀ w, w ∈ ws → Kept h w

variable {ws : List Write} {v w : Write}

/-- The heap once buf_write has made its rope, before the rope is in the list. -/
def Heap.withRope (h : Heap) (w : Write) : Heap where
  block := update (update h.block w.rope (some .rope)) w.str (some .str)
  next := h.next
  prev := h.prev
  pstr := update h.pstr w.rope w.str
  tag := update h.tag w.rope tagContext
  str := update h.str w.str (strndup w.content (u32 w.len))

structure Write.New (h : Heap) (w : Write) : Prop where
  rope : h.block w.rope = none
  str : h.block w.str = none
  ne : w.rope ≠ w.str

theorem bufWrite_val (hw : w.New h) :
    (bufWrite h buf w).val = (listAddTail (h.withRope w) w.rope buf).val := by
  simp [bufWrite,ropeSetn,malloc,Heap.write,Heap.withRope,hw.rope,hw.str,hw.ne,hw.ne.symm]

theorem Write.New.apart (hw : w.New h) {a : Addr} {b : Block} (ha : h.block a = some b) :
    a ≠ w.rope ∧ a ≠ w.str := by
  constructor
  · rintro rfl
    simp [hw.rope] at ha
  · rintro rfl
    simp [hw.str] at ha

theorem Heap.withRope_block (hw : w.New h) {a : Addr} {b : Block} (ha : h.block a = some b) :
    (h.withRope w).block a = some b := by
  obtain ⟨hr,hs⟩ := hw.apart ha
  simp [withRope,hr,hs,ha]

theorem Kept.withRope (hv : Kept h v) (hw : w.New h) : Kept (h.withRope w) v where
  rope := Heap.withRope_block hw hv.rope
  str := Heap.withRope_block hw hv.str
  pstr := by simp [Heap.withRope,(hw.apart hv.rope).1,hv.pstr]
  tag := by simp [Heap.withRope,(hw.apart hv.rope).1,hv.tag]
  bytes := by simp [Heap.withRope,(hw.apart hv.str).2,hv.bytes]

theorem kept_withRope (hw : w.New h) : Kept (h.withRope w) w where
  rope := by simp [Heap.withRope,hw.ne]
  str := by simp [Heap.withRope]
  pstr := by simp [Heap.withRope]
  tag := by simp [Heap.withRope]
  bytes := by simp [Heap.withRope]

theorem Ropes.listed (hr : Ropes h buf ws) : Listed h buf (ws.map Write.rope) where
  ring := hr.ring
  live := by
    intro x hx
    rcases List.mem_cons.mp hx with rfl | hx
    · rw [hr.head]
      rfl
    · obtain ⟨w,hw,rfl⟩ := List.mem_map.mp hx
      rw [(hr.kept w hw).rope]
      rfl

theorem Ropes.rope_notMem (hr : Ropes h buf ws) (hw : w.New h) :
    w.rope ∉ buf::ws.map Write.rope := by
  intro hin
  have hlive := hr.listed.live _ hin
  rw [hw.rope] at hlive
  cases hlive

theorem Ropes.withRope (hr : Ropes h buf ws) (hw : w.New h) : Ropes (h.withRope w) buf ws where
  head := Heap.withRope_block hw hr.head
  ring := hr.ring
  kept := fun v hv => (hr.kept v hv).withRope hw

theorem Ropes.write (hr : Ropes h buf ws) (hw : w.New h) :
    ∃ h', (bufWrite h buf w).val = some h' ∧ Ropes h' buf (ws++[w]) ∧
      h'.block = (h.withRope w).block := by
  have hr' := hr.withRope hw
  have hself := kept_withRope hw
  have hlive : hasList ((h.withRope w).block w.rope) = true := by
    rw [hself.rope]
    rfl
  obtain ⟨next,prev,hval,hring⟩ := listAddTail_ring hr'.listed hlive (hr.rope_notMem hw)
  have hring' : Ring next prev buf ((ws++[w]).map Write.rope) := by simpa using hring
  refine ⟨_,(bufWrite_val hw).trans hval,⟨hr'.head,hring',?_⟩,rfl⟩
  intro v hv
  have hv' : Kept (h.withRope w) v := by
    rcases List.mem_append.mp hv with hv | hv
    · exact hr'.kept v hv
    · rw [List.mem_singleton.mp hv]
      exact hself
  exact ⟨hv'.rope,hv'.str,hv'.pstr,hv'.tag,hv'.bytes⟩

theorem Fresh.first (hf : Fresh h (w::ws)) : w.New h where
  rope := hf.free _ (by simp [Write.blocks])
  str := hf.free _ (by simp [Write.blocks])
  ne := by
    have hnodup := hf.nodup
    rintro he
    simp [Write.blocks,he] at hnodup

theorem Fresh.rest (hf : Fresh h (w::ws)) {h' : Heap}
    (hblock : h'.block = (h.withRope w).block) : Fresh h' ws where
  free := by
    intro a ha
    have hnone := hf.free a (by simp [ha])
    obtain ⟨-,-,hdisj⟩ := List.nodup_append.mp hf.nodup
    have hr : a ≠ w.rope := fun he => hdisj w.rope (by simp [Write.blocks]) a ha he.symm
    have hs : a ≠ w.str := fun he => hdisj w.str (by simp [Write.blocks]) a ha he.symm
    simp [hblock,Heap.withRope,hr,hs,hnone]
  nodup := (List.nodup_append.mp hf.nodup).2.1

theorem bufWrites_ropes {vs : List Write} (hr : Ropes h buf vs) (hf : Fresh h ws) :
    ∃ h', (bufWrites h buf ws).val = some h' ∧ Ropes h' buf (vs++ws) := by
  induction ws generalizing h vs with
  | nil => exact ⟨h,rfl,by simpa using hr⟩
  | cons w ws ih =>
    obtain ⟨h₁,hval,hr₁,hblock⟩ := hr.write hf.first
    obtain ⟨h',hval',hr'⟩ := ih hr₁ (hf.rest hblock)
    exact ⟨h',by simp [bufWrites,hval,hval'],by simpa using hr'⟩

theorem bufFill_ropes (hbuf : h.block buf = some .head) (hf : Fresh h ws) :
    ∃ h', (bufFill h buf ws).val = some h' ∧ Ropes h' buf ws := by
  obtain ⟨next,prev,hval,hring⟩ := @initListHead_ring h buf (by rw [hbuf]; rfl)
  have hr : Ropes (h.relink next prev) buf [] := ⟨hbuf,hring,by simp⟩
  obtain ⟨h',hval',hr'⟩ := @bufWrites_ropes _ buf ws [] hr ⟨hf.free,hf.nodup⟩
  exact ⟨h',by simp [bufFill,bufInit,hval,hval'],hr'⟩

end SSearcher
