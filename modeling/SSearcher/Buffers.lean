import SSearcher.RopeWalk
set_option autoImplicit false

/-! Several buffers on one heap. Whatever the order of the calls of buf_init, buf_write,
buf_dump and buf_destroy on them, each buffer holds what was written to it. -/
namespace SSearcher
open Runs Memory Function Rings

inductive BufCall where
  | init (buf : Addr)
  | write (buf : Addr) (w : Write)
  | dump (buf : Addr)
  | destroy (buf : Addr)

def BufCall.exec (fuel : Nat) (h : Heap) : BufCall → Heaped Heap
  | init buf => bufInit h buf
  | write buf w => bufWrite h buf w
  | dump buf => do
    bufDump fuel h buf
    return h
  | destroy buf => bufDestroy fuel h buf

def bufCalls (fuel : Nat) (h : Heap) : List BufCall → Heaped Heap
  | [] => return h
  | c::cs => do
    let h ← c.exec fuel h
    bufCalls fuel h cs

/-- What the buffers in use hold, and the blocks that no buffer reaches any more. -/
structure Bufs where
  held : Addr → Option (List Write)
  lost : List Addr

namespace Bufs

def start : Bufs := ⟨fun _ => none,[]⟩

def dumped (ws : List Write) : List UInt8 :=
  ws.flatMap fun w => strndup w.content (u32 w.len) ++ [newline]

/-- What a call does, and what it prints. buf_init forgets what the buffer held. -/
def call (s : Bufs) : BufCall → Bufs × List UInt8
  | .init buf => (⟨update s.held buf (some []),
      s.lost ++ ((s.held buf).getD []).flatMap Write.blocks⟩,[])
  | .write buf w => (⟨update s.held buf ((s.held buf).map (· ++ [w])),s.lost⟩,[])
  | .dump buf => (s,dumped ((s.held buf).getD []))
  | .destroy buf => (⟨update s.held buf none,s.lost⟩,[])

def calls (s : Bufs) : List BufCall → Bufs × List UInt8
  | [] => (s,[])
  | c::cs =>
    let (s,out) := s.call c
    let (s,outs) := s.calls cs
    (s,out ++ outs)

def Owns (o : Option (List Write)) (a : Addr) : Prop := ∃ ws, o = some ws ∧ a ∈ ws.flatMap Write.blocks

def At (s : Bufs) (buf a : Addr) : Prop := Owns (s.held buf) a

def Has (s : Bufs) (a : Addr) : Prop := a ∈ s.lost ∨ ∃ buf, s.At buf a

end Bufs

/-- malloc answers with blocks that are not in use, maybe with one that was freed; only a
buffer that has been set up is written, dumped or destroyed. -/
def BufCall.Legal (h₀ : Heap) (s : Bufs) : BufCall → Prop
  | init buf => h₀.block buf = some .head
  | write buf w => (s.held buf).isSome = true ∧ w.rope ≠ w.str ∧
      ∀ a, a ∈ w.blocks → h₀.block a = none ∧ ¬ s.Has a
  | dump buf | destroy buf => (s.held buf).isSome = true

def LegalCalls (h₀ : Heap) (s : Bufs) : List BufCall → Prop
  | [] => True
  | c::cs => c.Legal h₀ s ∧ LegalCalls h₀ (s.call c).1 cs

structure Same (h h' : Heap) (a : Addr) : Prop where
  block : h'.block a = h.block a
  next : h'.next a = h.next a
  prev : h'.prev a = h.prev a
  pstr : h'.pstr a = h.pstr a
  tag : h'.tag a = h.tag a
  str : h'.str a = h.str a

theorem Same.trans {h h' h'' : Heap} {a : Addr} (hs : Same h h' a) (hs' : Same h' h'' a) :
    Same h h'' a :=
  ⟨hs'.block.trans hs.block,hs'.next.trans hs.next,hs'.prev.trans hs.prev,
    hs'.pstr.trans hs.pstr,hs'.tag.trans hs.tag,hs'.str.trans hs.str⟩

variable {h₀ h h' : Heap} {s : Bufs} {buf a n head : Addr} {ws : List Write} {w : Write}

theorem mem_blocks : a ∈ ws.flatMap Write.blocks ↔ ∃ w, w ∈ ws ∧ (a = w.str ∨ a = w.rope) := by
  simp [Write.blocks]

theorem Ropes.frame (hr : Ropes h buf ws)
    (hsame : ∀ a, a ∈ buf::ws.flatMap Write.blocks → Same h h' a) : Ropes h' buf ws where
  head := (hsame buf List.mem_cons_self).block.trans hr.head
  ring := by
    have hnode : ∀ x, x ∈ buf::ws.map Write.rope → Same h h' x := by
      intro x hx
      rcases List.mem_cons.mp hx with rfl | hx
      · exact hsame _ List.mem_cons_self
      · obtain ⟨w,hw,rfl⟩ := List.mem_map.mp hx
        exact hsame _ (List.mem_cons_of_mem _ (mem_blocks.mpr ⟨w,hw,.inr rfl⟩))
    exact hr.ring.congr (fun x hx => (hnode x hx).next) fun x hx => (hnode x hx).prev
  kept := by
    intro w hw
    have hk := hr.kept w hw
    have hrope := hsame w.rope (List.mem_cons_of_mem _ (mem_blocks.mpr ⟨w,hw,.inr rfl⟩))
    have hstr := hsame w.str (List.mem_cons_of_mem _ (mem_blocks.mpr ⟨w,hw,.inl rfl⟩))
    exact ⟨hrope.block.trans hk.rope,hstr.block.trans hk.str,hrope.pstr.trans hk.pstr,
      hrope.tag.trans hk.tag,hstr.str.trans hk.bytes⟩

theorem Ropes.block_of_mem (hr : Ropes h buf ws) (ha : a ∈ ws.flatMap Write.blocks) :
    h.block a = some .rope ∨ h.block a = some .str := by
  obtain ⟨w,hw,rfl | rfl⟩ := mem_blocks.mp ha
  · exact .inr (hr.kept w hw).str
  · exact .inl (hr.kept w hw).rope

theorem bufInit_ropes (hbuf : h.block buf = some .head) :
    ∃ h', (bufInit h buf).val = some h' ∧ h'.block = h.block ∧ Ropes h' buf [] ∧
      ∀ a, a ≠ buf → Same h h' a := by
  have hlive : hasList (h.block buf) = true := by rw [hbuf]; rfl
  refine ⟨h.relink (update h.next buf buf) (update h.prev buf buf),?_,rfl,
    ⟨hbuf,ring_nil (update_self ..) (update_self ..),by simp⟩,fun a ha => ?_⟩
  · simp [bufInit,initListHead,setNext,setPrev,Heap.write,Heap.relink,hlive]
  · exact ⟨rfl,update_of_ne ha ..,update_of_ne ha ..,rfl,rfl,rfl⟩

theorem Heap.write_eq {ok : Option Block → Bool} {x y : Heap}
    (hv : (h.write ok a x).val = some y) : y = x := by
  obtain ⟨-,-,hv⟩ := Run.bind_eq_some.mp hv
  split at hv <;> cases hv
  rfl

theorem setNext_same {b : Addr} (hv : (setNext h n b).val = some h') (hne : a ≠ n) :
    Same h h' a := by
  rw [Heap.write_eq hv]
  exact ⟨rfl,update_of_ne hne ..,rfl,rfl,rfl,rfl⟩

theorem setPrev_same {b : Addr} (hv : (setPrev h n b).val = some h') (hne : a ≠ n) :
    Same h h' a := by
  rw [Heap.write_eq hv]
  exact ⟨rfl,rfl,update_of_ne hne ..,rfl,rfl,rfl⟩

theorem listAddTail_same (hv : (listAddTail h n head).val = some h') (hn : a ≠ n)
    (hhead : a ≠ head) (hprev : a ≠ h.prev head) : Same h h' a := by
  obtain ⟨prev,hread,hv⟩ := Run.bind_eq_some.mp hv
  obtain rfl : prev = h.prev head := by
    obtain ⟨-,-,hread⟩ := Run.bind_eq_some.mp hread
    split at hread <;> cases hread
    rfl
  obtain ⟨h₁,hv₁,hv⟩ := Run.bind_eq_some.mp hv
  obtain ⟨h₂,hv₂,hv⟩ := Run.bind_eq_some.mp hv
  obtain ⟨h₃,hv₃,hv⟩ := Run.bind_eq_some.mp hv
  exact (((setPrev_same hv₁ hhead).trans (setNext_same hv₂ hn)).trans
    (setPrev_same hv₃ hn)).trans (setNext_same hv hprev)

theorem Ropes.write_same (hr : Ropes h buf ws) (hw : w.New h) :
    ∃ h', (bufWrite h buf w).val = some h' ∧ Ropes h' buf (ws++[w]) ∧
      h'.block = (h.withRope w).block ∧
      ∀ a, a ∉ buf::ws.flatMap Write.blocks → a ∉ w.blocks → Same h h' a := by
  obtain ⟨h',hv,hr',hblock⟩ := hr.write hw
  refine ⟨h',hv,hr',hblock,fun a ha hnew => ?_⟩
  rw [bufWrite_val hw] at hv
  obtain ⟨hstr,hrope⟩ : a ≠ w.str ∧ a ≠ w.rope := by simpa [Write.blocks] using hnew
  have hnode : ∀ x, x ∈ buf::ws.map Write.rope → a ≠ x := by
    rintro x hx rfl
    refine ha ?_
    rcases List.mem_cons.mp hx with rfl | hx
    · exact List.mem_cons_self
    · obtain ⟨w,hw,rfl⟩ := List.mem_map.mp hx
      exact List.mem_cons_of_mem _ (mem_blocks.mpr ⟨w,hw,.inr rfl⟩)
  have hprev : h.prev buf ∈ buf::ws.map Write.rope := by
    simpa using hr.ring.symm.next_mem (x := buf) List.mem_cons_self
  have hsame := listAddTail_same hv hrope (hnode _ List.mem_cons_self) (hnode _ hprev)
  have hwith : Same h (h.withRope w) a := ⟨by simp [Heap.withRope,hstr,hrope],rfl,rfl,
    by simp [Heap.withRope,hrope],by simp [Heap.withRope,hrope],by simp [Heap.withRope,hstr]⟩
  exact hwith.trans hsame

theorem free_eq (hv : (free h a).val = some h') : h' = { h with block := update h.block a none } := by
  obtain ⟨-,-,hv⟩ := Run.bind_eq_some.mp hv
  split at hv <;> cases hv
  rfl

theorem destroyLoop_fields {fuel : Nat} {t : DestroyLoop}
    (hv : (Run.loop (destroyStep buf) fuel t).val = some h') :
    h' = { t.heap with block := h'.block } := by
  have hstep : ∀ u u', u.heap = { t.heap with block := u.heap.block } →
      (destroyStep buf u).val = some (.inl u') →
      u'.heap = { t.heap with block := u'.heap.block } := by
    intro u u' hu hstep
    unfold destroyStep at hstep
    split at hstep
    · cases hstep
    · obtain ⟨_,-,hstep⟩ := Run.bind_eq_some.mp hstep
      obtain ⟨h₁,hfree₁,hstep⟩ := Run.bind_eq_some.mp hstep
      obtain ⟨h₂,hfree₂,hstep⟩ := Run.bind_eq_some.mp hstep
      obtain ⟨_,-,hstep⟩ := Run.bind_eq_some.mp hstep
      cases hstep
      simp only
      rw [free_eq hfree₂,free_eq hfree₁,hu]
  obtain ⟨u,hr,hexit⟩ := Run.loop_exit hv
  have hinv := hr.invariant hstep rfl
  unfold destroyStep at hexit
  split at hexit
  · cases hexit
    exact hinv
  · obtain ⟨_,-,hexit⟩ := Run.bind_eq_some.mp hexit
    obtain ⟨_,-,hexit⟩ := Run.bind_eq_some.mp hexit
    obtain ⟨_,-,hexit⟩ := Run.bind_eq_some.mp hexit
    obtain ⟨_,-,hexit⟩ := Run.bind_eq_some.mp hexit
    cases hexit

theorem outputs_destroyLog (next : Addr → Addr) (ws : List Write) :
    outputs (destroyLog next ws) = [] := by
  induction ws with
  | nil => rfl
  | cons w ws ih => exact ih

/-- Only buf_dump prints. -/
def HeapEvent.Silent (e : HeapEvent) : Prop := e.output = []

theorem outputs_silent {α : Type} {x : Heaped α} (hx : Run.Only HeapEvent.Silent x) :
    outputs x.log = [] := List.flatMap_eq_nil_iff.mpr hx

theorem silent_access {α : Type} (e : HeapEvent) (he : e.Silent) (ok : Bool) (x : α) :
    Run.Only HeapEvent.Silent (do .emit e; if ok then return x else .stuck : Heaped α) :=
  .bind (by simpa [Run.Only] using he) fun _ _ => .ite (fun _ => .pure _ _) fun _ => .stuck _

theorem silent_read {β : Type} (h : Heap) (ok : Option Block → Bool) (field : Addr → β)
    (a : Addr) : Run.Only HeapEvent.Silent (h.read ok field a) :=
  silent_access (.read a) rfl _ _

theorem silent_write (h : Heap) (ok : Option Block → Bool) (a : Addr) (h' : Heap) :
    Run.Only HeapEvent.Silent (h.write ok a h') :=
  silent_access (.write a) rfl _ _

theorem silent_malloc (h : Heap) (b : Block) (a : Addr) :
    Run.Only HeapEvent.Silent (malloc h b a) :=
  .bind (by simp [Run.Only,HeapEvent.Silent,HeapEvent.output]) fun _ _ =>
    .ite (fun _ => .pure _ _) fun _ => .stuck _

theorem silent_bufInit (h : Heap) (buf : Addr) : Run.Only HeapEvent.Silent (bufInit h buf) :=
  .bind (silent_write _ _ _ _) fun _ _ => silent_write _ _ _ _

theorem silent_bufWrite (h : Heap) (buf : Addr) (w : Write) :
    Run.Only HeapEvent.Silent (bufWrite h buf w) := by
  refine .bind (silent_malloc _ _ _) fun _ _ => .bind (.bind (silent_malloc _ _ _) fun _ _ =>
    .bind (silent_write _ _ _ _) fun _ _ => silent_write _ _ _ _) fun _ _ => ?_
  refine .bind (silent_read _ _ _ _) fun _ _ => .bind (silent_write _ _ _ _) fun _ _ => ?_
  exact .bind (silent_write _ _ _ _) fun _ _ => .bind (silent_write _ _ _ _) fun _ _ =>
    silent_write _ _ _ _

theorem bufDestroy_ropes (hr : Ropes h buf ws) (hnodup : (ws.flatMap Write.blocks).Nodup)
    {fuel : Nat} (hfuel : ws.length < fuel) :
    ∃ h', (bufDestroy fuel h buf).val = some h' ∧ outputs (bufDestroy fuel h buf).log = [] ∧
      (∀ a, h'.block a = if a ∈ ws.flatMap Write.blocks then none else h.block a) ∧
      ∀ a, a ∉ ws.flatMap Write.blocks → Same h h' a := by
  have hrest := hr.rest hnodup
  obtain ⟨h',hloop,hblock⟩ := destroyLoop_rest hrest hfuel
  have hhead : hasList (h.block buf) = true := hr.listed.live buf List.mem_cons_self
  have hfirst : (getNext h buf).val = some (h.next buf) := Heap.val_read hhead
  have hsecond : (getNext h (h.next buf)).val = some (h.next (h.next buf)) :=
    Heap.val_read hrest.hasList
  have hv : (Run.loop (destroyStep buf) fuel ⟨h,h.next buf,h.next (h.next buf)⟩).val = some h' := by
    rw [hloop]
  have hfields := destroyLoop_fields hv
  refine ⟨h',?_,?_,hblock,fun a ha => ?_⟩
  · rw [bufDestroy,Run.val_bind,hfirst,Option.bind_some,Run.val_bind,hsecond,Option.bind_some,hv]
  · have hread : ∀ x, outputs (getNext h x).log = [] := fun x =>
      outputs_silent (silent_read h hasList h.next x)
    rw [bufDestroy,Run.log_bind_of_val _ hfirst,outputs_append,Run.log_bind_of_val _ hsecond,
      outputs_append,hread,hread,hloop]
    exact outputs_destroyLog h.next ws
  · rw [hfields]
    exact ⟨(hblock a).trans (if_neg ha),rfl,rfl,rfl,rfl,rfl⟩

/-- The heap `h` holds the buffers `s` on top of `h₀`: each buffer its own list, no block
belongs to two of them, and no other block is in use. -/
structure Bufs.Models (h₀ h : Heap) (s : Bufs) : Prop where
  ropes : ∀ buf ws, s.held buf = some ws → Ropes h buf ws ∧ (ws.flatMap Write.blocks).Nodup
  apart : ∀ buf buf' a, s.At buf a → s.At buf' a → buf = buf'
  lost : ∀ buf a, s.At buf a → a ∉ s.lost
  base : ∀ a, h₀.block a ≠ none → h.block a = h₀.block a ∧ ¬ s.Has a
  used : ∀ a, h.block a ≠ none ↔ h₀.block a ≠ none ∨ s.Has a

namespace Bufs

theorem at_update {o : Option (List Write)} {l : List Addr} {b : Addr} :
    At ⟨update s.held buf o,l⟩ b a ↔ if b = buf then Owns o a else s.At b a := by
  by_cases hb : b = buf
  · subst hb
    simp [At]
  · simp [At,hb]

theorem Models.at_used (hm : Models h₀ h s) (hat : s.At buf a) :
    h.block a = some .rope ∨ h.block a = some .str := by
  obtain ⟨ws,hheld,ha⟩ := hat
  exact (hm.ropes buf ws hheld).1.block_of_mem ha

theorem Models.has_used (hm : Models h₀ h s) (hhas : s.Has a) : h.block a ≠ none :=
  (hm.used a).mpr (.inr hhas)

section change
variable {o : Option (List Write)} {m : List Addr}

/-- A call changes one buffer: it may take new blocks, free some and lose some. -/
structure Changed (h h' : Heap) (s : Bufs) (buf : Addr) (o : Option (List Write))
    (m : List Addr) : Prop where
  head : h.block buf = some .head
  kept : h'.block buf = h.block buf
  others : ∀ a, h.block a ≠ none → a ≠ buf → ¬ s.At buf a → Same h h' a
  ropes : ∀ ws, o = some ws → Ropes h' buf ws ∧ (ws.flatMap Write.blocks).Nodup
  new : ∀ a, Owns o a → s.At buf a ∨ h.block a = none
  alloc : ∀ a, h.block a = none → h'.block a ≠ none → Owns o a
  lost : ∀ a, a ∈ m → s.At buf a ∧ ¬ Owns o a ∧ h'.block a ≠ none
  gone : ∀ a, s.At buf a → ¬ Owns o a → a ∉ m → h'.block a = none

theorem Changed.same (hc : Changed h h' s buf o m) (hm : Models h₀ h s)
    {b : Addr} (hne : b ≠ buf) (hat : s.At b a) : Same h h' a := by
  have hblock := hm.at_used hat
  refine hc.others a ?_ ?_ fun hat' => hne (hm.apart b buf a hat hat')
  · rcases hblock with hblock | hblock <;> simp [hblock]
  · rintro rfl
    rw [hc.head] at hblock
    simp at hblock

theorem Changed.ropes_other (hc : Changed h h' s buf o m) (hm : Models h₀ h s)
    {b : Addr} (hne : b ≠ buf) (hheld : s.held b = some ws) : Ropes h' b ws := by
  have hr := (hm.ropes b ws hheld).1
  refine hr.frame fun a ha => ?_
  rcases List.mem_cons.mp ha with rfl | ha
  · refine hc.others _ (by simp [hr.head]) hne fun hat => ?_
    have hblock := hm.at_used hat
    rw [hr.head] at hblock
    simp at hblock
  · exact hc.same hm hne ⟨ws,hheld,ha⟩

theorem Changed.new_apart (hc : Changed h h' s buf o m) (hm : Models h₀ h s) {b : Addr}
    (hne : b ≠ buf) (hat : s.At b a) : ¬ Owns o a := by
  intro hown
  rcases hc.new a hown with hat' | hnone
  · exact hne (hm.apart b buf a hat hat')
  · exact hm.has_used (.inr ⟨b,hat⟩) hnone

theorem Changed.apart (hc : Changed h h' s buf o m) (hm : Models h₀ h s) {l : List Addr}
    {b b' : Addr} (hat : At ⟨update s.held buf o,l⟩ b a)
    (hat' : At ⟨update s.held buf o,l⟩ b' a) : b = b' := by
  rw [at_update] at hat hat'
  by_cases hb : b = buf
  · rw [if_pos hb] at hat
    by_cases hb' : b' = buf
    · rw [hb,hb']
    · rw [if_neg hb'] at hat'
      exact absurd hat (hc.new_apart hm hb' hat')
  · rw [if_neg hb] at hat
    by_cases hb' : b' = buf
    · rw [if_pos hb'] at hat'
      exact absurd hat' (hc.new_apart hm hb hat)
    · rw [if_neg hb'] at hat'
      exact hm.apart b b' a hat hat'

theorem Changed.not_lost (hc : Changed h h' s buf o m) (hm : Models h₀ h s) {l : List Addr}
    {b : Addr} (hat : At ⟨update s.held buf o,l⟩ b a) : a ∉ s.lost++m := by
  intro hin
  rw [at_update] at hat
  by_cases hb : b = buf
  · rw [if_pos hb] at hat
    rcases List.mem_append.mp hin with hin | hin
    · rcases hc.new a hat with hat | hnone
      · exact hm.lost buf a hat hin
      · exact hm.has_used (.inl hin) hnone
    · exact (hc.lost a hin).2.1 hat
  · rw [if_neg hb] at hat
    rcases List.mem_append.mp hin with hin | hin
    · exact hm.lost b a hat hin
    · exact hb (hm.apart b buf a hat (hc.lost a hin).1)

theorem Changed.base (hc : Changed h h' s buf o m) (hm : Models h₀ h s)
    (ha : h₀.block a ≠ none) :
    h'.block a = h₀.block a ∧ ¬ Has ⟨update s.held buf o,s.lost++m⟩ a := by
  obtain ⟨heq,hno⟩ := hm.base a ha
  have hin : h.block a ≠ none := heq ▸ ha
  refine ⟨?_,?_⟩
  · by_cases hb : a = buf
    · rw [hb,hc.kept,← hb,heq]
    · exact (hc.others a hin hb fun hat => hno (.inr ⟨buf,hat⟩)).block.trans heq
  · rintro (hlost | ⟨b,hat⟩)
    · rcases List.mem_append.mp hlost with hlost | hlost
      · exact hno (.inl hlost)
      · exact hno (.inr ⟨buf,(hc.lost a hlost).1⟩)
    · rw [at_update] at hat
      split at hat
      · exact (hc.new a hat).elim (fun hat => hno (.inr ⟨buf,hat⟩)) hin
      · exact hno (.inr ⟨b,hat⟩)

/-- What is in use behind the call was there before and is still had, or the call took it. -/
theorem Changed.has_of_used (hc : Changed h h' s buf o m) (hm : Models h₀ h s)
    (hin : h'.block a ≠ none) :
    h₀.block a ≠ none ∨ Has ⟨update s.held buf o,s.lost++m⟩ a := by
  have hown : Owns o a → h₀.block a ≠ none ∨ Has ⟨update s.held buf o,s.lost++m⟩ a :=
    fun hown => .inr (.inr ⟨buf,at_update.mpr (by rwa [if_pos rfl])⟩)
  by_cases hnone : h.block a = none
  · exact hown (hc.alloc a hnone hin)
  rcases (hm.used a).mp hnone with hbase | hlost | ⟨b,hat⟩
  · exact .inl hbase
  · exact .inr (.inl (List.mem_append_left m hlost))
  · by_cases hb : b = buf
    · subst hb
      by_cases ho : Owns o a
      · exact hown ho
      · by_cases hlost : a ∈ m
        · exact .inr (.inl (List.mem_append_right s.lost hlost))
        · exact absurd (hc.gone a hat ho hlost) hin
    · exact .inr (.inr ⟨b,at_update.mpr (by rwa [if_neg hb])⟩)

theorem Changed.used_other (hc : Changed h h' s buf o m) (hin : h.block a ≠ none)
    (hat : ¬ s.At buf a) : h'.block a ≠ none := by
  by_cases hb : a = buf
  · rwa [hb,hc.kept,← hb]
  · rwa [(hc.others a hin hb hat).block]

theorem Changed.used_of_has (hc : Changed h h' s buf o m) (hm : Models h₀ h s)
    (hhas : Has ⟨update s.held buf o,s.lost++m⟩ a) : h'.block a ≠ none := by
  rcases hhas with hlost | ⟨b,hat⟩
  · rcases List.mem_append.mp hlost with hlost | hlost
    · exact hc.used_other (hm.has_used (.inl hlost)) fun hat => hm.lost buf a hat hlost
    · exact (hc.lost a hlost).2.2
  · rw [at_update] at hat
    split at hat
    · obtain ⟨ws,ho,ha⟩ := hat
      rcases (hc.ropes ws ho).1.block_of_mem ha with hblock | hblock <;> simp [hblock]
    · rename_i hb
      exact hc.used_other (hm.has_used (.inr ⟨b,hat⟩)) fun hat' => hb (hm.apart b buf a hat hat')

theorem Changed.models (hc : Changed h h' s buf o m) (hm : Models h₀ h s) :
    Models h₀ h' ⟨update s.held buf o,s.lost++m⟩ where
  ropes := by
    intro b ws hheld
    by_cases hb : b = buf
    · subst hb
      exact hc.ropes ws ((update_self b o s.held).symm.trans hheld)
    · have hold : s.held b = some ws := (update_of_ne hb o s.held).symm.trans hheld
      exact ⟨hc.ropes_other hm hb hold,(hm.ropes b ws hold).2⟩
  apart := fun _ _ _ => hc.apart hm
  lost := fun _ _ => hc.not_lost hm
  base := fun _ => hc.base hm
  used := by
    intro a
    refine ⟨hc.has_of_used hm,?_⟩
    rintro (hbase | hhas)
    · rwa [(hc.base hm hbase).1]
    · exact hc.used_of_has hm hhas

end change

variable {fuel : Nat}

theorem init_changed (hm : Models h₀ h s) (hbuf : h₀.block buf = some .head) :
    ∃ h', (bufInit h buf).val = some h' ∧
      Changed h h' s buf (some []) (((s.held buf).getD []).flatMap Write.blocks) := by
  have hhead : h.block buf = some .head :=
    (hm.base buf (by simp [hbuf])).1.trans hbuf
  obtain ⟨h',hv,hblock,hr,hsame⟩ := bufInit_ropes hhead
  have hempty : ∀ a, ¬ Owns (some []) a := by
    rintro a ⟨ws,⟨⟩,ha⟩
    cases ha
  refine ⟨h',hv,hhead,congrFun hblock buf,fun a _ hne _ => hsame a hne,?_,
    fun a hown => absurd hown (hempty a),fun a hnone hin => absurd (congrFun hblock a ▸ hnone) hin,
    fun a ha => ?_,fun a hat _ hin => ?_⟩
  · rintro ws ⟨⟩
    exact ⟨hr,List.nodup_nil⟩
  · cases hheld : s.held buf with
    | none =>
      rw [hheld] at ha
      cases ha
    | some ws =>
      rw [hheld] at ha
      have hat : s.At buf a := ⟨ws,hheld,ha⟩
      exact ⟨hat,hempty a,hblock ▸ hm.has_used (.inr ⟨buf,hat⟩)⟩
  · obtain ⟨ws,hheld,ha⟩ := hat
    rw [hheld] at hin
    exact absurd ha hin

theorem write_changed (hm : Models h₀ h s) (hheld : s.held buf = some ws)
    (hne : w.rope ≠ w.str) (hfree : ∀ a, a ∈ w.blocks → h.block a = none) :
    ∃ h', (bufWrite h buf w).val = some h' ∧ Changed h h' s buf (some (ws++[w])) [] := by
  obtain ⟨hr,hnodup⟩ := hm.ropes buf ws hheld
  have hw : w.New h :=
    ⟨hfree _ (by simp [Write.blocks]),hfree _ (by simp [Write.blocks]),hne⟩
  obtain ⟨h',hv,hr',hblock,hsame⟩ := hr.write_same hw
  have hmem : ∀ a, a ∈ (ws++[w]).flatMap Write.blocks ↔
      a ∈ ws.flatMap Write.blocks ∨ a ∈ w.blocks := by simp
  have hown : ∀ a, Owns (some (ws++[w])) a ↔ s.At buf a ∨ a ∈ w.blocks := by
    intro a
    simp [Owns,At,hheld]
  refine ⟨h',hv,hr.head,?_,fun a hin hb hat => hsame a ?_ ?_,?_,fun a ho => ?_,fun a hnone hin => ?_,
    by simp,fun a hat ho _ => absurd ((hown a).mpr (.inl hat)) ho⟩
  · rw [hblock,Heap.withRope_block hw hr.head,hr.head]
  · intro ha
    rcases List.mem_cons.mp ha with rfl | ha
    · exact hb rfl
    · exact hat ⟨ws,hheld,ha⟩
  · exact fun ha => hin (hfree a ha)
  · rintro _ ⟨⟩
    refine ⟨hr',?_⟩
    rw [List.flatMap_append,List.flatMap_singleton]
    refine List.nodup_append.mpr ⟨hnodup,by simp [Write.blocks,hne.symm],fun a ha b hb => ?_⟩
    rintro rfl
    exact hm.has_used (.inr ⟨buf,ws,hheld,ha⟩) (hfree a hb)
  · exact ((hown a).mp ho).imp_right (hfree a)
  · refine (hown a).mpr (.inr ?_)
    rw [hblock] at hin
    by_contra hno
    obtain ⟨hs,hr⟩ : a ≠ w.str ∧ a ≠ w.rope := by simpa [Write.blocks] using hno
    exact hin (by simp [Heap.withRope,hs,hr,hnone])

theorem destroy_changed (hm : Models h₀ h s) (hheld : s.held buf = some ws)
    (hfuel : ws.length < fuel) :
    ∃ h', (bufDestroy fuel h buf).val = some h' ∧ outputs (bufDestroy fuel h buf).log = [] ∧
      Changed h h' s buf none [] := by
  obtain ⟨hr,hnodup⟩ := hm.ropes buf ws hheld
  obtain ⟨h',hv,hout,hblock,hsame⟩ := bufDestroy_ropes hr hnodup hfuel
  have hbuf : buf ∉ ws.flatMap Write.blocks := by
    intro hin
    have hblock := hr.block_of_mem hin
    rw [hr.head] at hblock
    simp at hblock
  refine ⟨h',hv,hout,hr.head,(hsame buf hbuf).block,fun a _ _ hat => hsame a fun ha =>
    hat ⟨ws,hheld,ha⟩,by rintro _ ⟨⟩,by rintro _ ⟨_,⟨⟩,-⟩,fun a hnone hin => ?_,by simp,?_⟩
  · rw [hblock,hnone,ite_self] at hin
    exact absurd rfl hin
  · rintro a ⟨ws',hheld',ha⟩ _ _
    obtain rfl : ws = ws' := Option.some.inj (hheld.symm.trans hheld')
    rw [hblock,if_pos ha]

theorem call_models (hm : Models h₀ h s) (c : BufCall) (hlegal : c.Legal h₀ s)
    (hfuel : ∀ buf ws, s.held buf = some ws → ws.length < fuel) :
    ∃ h', (c.exec fuel h).val = some h' ∧ Models h₀ h' (s.call c).1 ∧
      outputs (c.exec fuel h).log = (s.call c).2 := by
  cases c with
  | init buf =>
    obtain ⟨h',hv,hc⟩ := init_changed hm hlegal
    exact ⟨h',hv,hc.models hm,outputs_silent (silent_bufInit h buf)⟩
  | write buf w =>
    obtain ⟨hsome,hne,hfree⟩ := hlegal
    obtain ⟨ws,hheld⟩ := Option.isSome_iff_exists.mp hsome
    obtain ⟨h',hv,hc⟩ := write_changed hm hheld hne fun a ha => by
      obtain ⟨hbase,hno⟩ := hfree a ha
      by_contra hin
      exact ((hm.used a).mp hin).elim (fun h => h hbase) hno
    have hm' := hc.models hm
    rw [List.append_nil] at hm'
    refine ⟨h',hv,?_,outputs_silent (silent_bufWrite h buf w)⟩
    rw [call,hheld]
    exact hm'
  | dump buf =>
    obtain ⟨ws,hheld⟩ := Option.isSome_iff_exists.mp hlegal
    obtain ⟨hv,hout⟩ := bufDump_ropes (hm.ropes buf ws hheld).1 (hfuel buf ws hheld)
    refine ⟨h,?_,hm,?_⟩
    · rw [BufCall.exec,Run.val_bind,hv]
      rfl
    · rw [BufCall.exec,Run.log_bind_pure,hout,call,hheld]
      rfl
  | destroy buf =>
    obtain ⟨ws,hheld⟩ := Option.isSome_iff_exists.mp hlegal
    obtain ⟨h',hv,hout,hc⟩ := destroy_changed hm hheld (hfuel buf ws hheld)
    have hm' := hc.models hm
    rw [List.append_nil] at hm'
    exact ⟨h',hv,hm',hout⟩

theorem length_call {c : BufCall} (hheld : (s.call c).1.held buf = some ws) :
    ws = [] ∨ ∃ ws', s.held buf = some ws' ∧ ws.length ≤ ws'.length+1 := by
  have hold : s.held buf = some ws →
      ws = [] ∨ ∃ ws', s.held buf = some ws' ∧ ws.length ≤ ws'.length+1 :=
    fun hheld => .inr ⟨ws,hheld,Nat.le_succ _⟩
  cases c with
  | init b =>
    simp only [call,update_apply] at hheld
    split at hheld
    · exact .inl (Option.some.inj hheld).symm
    · exact hold hheld
  | write b w =>
    simp only [call,update_apply] at hheld
    split at hheld
    · rename_i hb
      obtain ⟨ws',hheld',rfl⟩ := Option.map_eq_some_iff.mp hheld
      exact .inr ⟨ws',hb ▸ hheld',by simp⟩
    · exact hold hheld
  | dump b => exact hold hheld
  | destroy b =>
    simp only [call,update_apply] at hheld
    split at hheld
    · cases hheld
    · exact hold hheld

theorem calls_models (hm : Models h₀ h s) {cs : List BufCall} (hlegal : LegalCalls h₀ s cs)
    (hcs : cs.length < fuel)
    (hfuel : ∀ buf ws, s.held buf = some ws → ws.length + cs.length < fuel) :
    ∃ h', (bufCalls fuel h cs).val = some h' ∧ Models h₀ h' (s.calls cs).1 ∧
      outputs (bufCalls fuel h cs).log = (s.calls cs).2 := by
  induction cs generalizing h s with
  | nil => exact ⟨h,rfl,hm,rfl⟩
  | cons c cs ih =>
    obtain ⟨hc,hrest⟩ := hlegal
    rw [List.length_cons] at hcs
    have hroom : ∀ buf ws, s.held buf = some ws → ws.length < fuel := fun buf ws hheld => by
      have hlt := hfuel buf ws hheld
      omega
    obtain ⟨h₁,hv₁,hm₁,hout₁⟩ := call_models hm c hc hroom
    obtain ⟨h',hv,hm',hout⟩ := ih hm₁ hrest (by omega) fun buf ws hheld => by
      rcases length_call hheld with rfl | ⟨ws',hheld',hle⟩
      · rw [List.length_nil]
        omega
      · have hlt := hfuel buf ws' hheld'
        rw [List.length_cons] at hlt
        omega
    refine ⟨h',?_,hm',?_⟩
    · rw [bufCalls,Run.val_bind,hv₁,Option.bind_some,hv]
    · rw [bufCalls,Run.log_bind_of_val _ hv₁,outputs_append,hout₁,hout]
      rfl

end Bufs

end SSearcher
