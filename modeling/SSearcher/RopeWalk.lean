import SSearcher.RopeSpec
set_option autoImplicit false

namespace SSearcher
open Runs Memory Function Rings

variable {h : Heap} {a buf : Addr} {ws : List Write} {w : Write}

def HeapEvent.output : HeapEvent → List UInt8
  | .print bytes => bytes
  | _ => []

def outputs (log : List HeapEvent) : List UInt8 := log.flatMap HeapEvent.output

theorem outputs_append (l l' : List HeapEvent) : outputs (l++l') = outputs l ++ outputs l' :=
  List.flatMap_append

theorem dumpStep_kept (hk : Kept h w) (hne : w.rope ≠ buf) :
    (dumpStep h buf w.rope).val = some (.inl (h.next w.rope)) ∧
      outputs (dumpStep h buf w.rope).log = strndup w.content (u32 w.len) ++ [newline] := by
  have hleaf : tagContext ≠ tagDefault := by decide
  constructor
  · simp [dumpStep,ropeIsleaf,getNext,Heap.read,hne,hk.rope,hk.pstr,hk.str,hk.tag,hleaf,hasList]
  · simp [dumpStep,ropeIsleaf,getNext,Heap.read,hne,hk.rope,hk.pstr,hk.str,hk.tag,hleaf,
      hasList,hk.bytes,outputs,HeapEvent.output]

theorem dumpLoop_leads (hl : Leads h.next a (ws.map Write.rope) buf)
    (hk : ∀ w, w ∈ ws → Kept h w ∧ w.rope ≠ buf) {fuel : Nat} (hfuel : ws.length < fuel) :
    (Run.loop (dumpStep h buf) fuel (h.next a)).val = some () ∧
      outputs (Run.loop (dumpStep h buf) fuel (h.next a)).log =
        ws.flatMap fun w => strndup w.content (u32 w.len) ++ [newline] := by
  induction ws generalizing a fuel with
  | nil =>
    obtain ⟨fuel,rfl⟩ : ∃ i, fuel = i+1 := ⟨fuel-1,by omega⟩
    have hstop : (dumpStep h buf (h.next a)) = ⟨some (.inr ()),[]⟩ := by
      rw [leads_nil.mp hl,dumpStep,if_pos rfl]
      rfl
    rw [Run.loop_of_inr (r := ()) fuel (by rw [hstop]),hstop]
    exact ⟨rfl,rfl⟩
  | cons w ws ih =>
    obtain ⟨fuel,rfl⟩ : ∃ i, fuel = i+1 := ⟨fuel-1,by omega⟩
    obtain ⟨ha,hl⟩ := leads_cons.mp hl
    obtain ⟨hkw,hne⟩ := hk w List.mem_cons_self
    obtain ⟨hval,hout⟩ := dumpStep_kept hkw hne
    obtain ⟨hval',hout'⟩ := ih hl (fun v hv => hk v (List.mem_cons_of_mem _ hv))
      (Nat.lt_of_succ_lt_succ hfuel)
    rw [ha,Run.loop_of_inl fuel hval]
    refine ⟨hval',?_⟩
    rw [outputs_append,hout,hout',List.flatMap_cons]

theorem Ropes.apart (hr : Ropes h buf ws) (hw : w ∈ ws) : w.rope ≠ buf := by
  rintro rfl
  exact (List.nodup_cons.mp hr.ring.nodup).1 (List.mem_map_of_mem hw)

theorem bufDump_ropes (hr : Ropes h buf ws) {fuel : Nat} (hfuel : ws.length < fuel) :
    (bufDump fuel h buf).val = some () ∧ outputs (bufDump fuel h buf).log =
      ws.flatMap fun w => strndup w.content (u32 w.len) ++ [newline] := by
  have hhead : hasList (h.block buf) = true := hr.listed.live buf List.mem_cons_self
  obtain ⟨hval,hout⟩ := dumpLoop_leads hr.ring.forward
    (fun w hw => ⟨hr.kept w hw,hr.apart hw⟩) hfuel
  have hnext : (getNext h buf).val = some (h.next buf) := Heap.val_read hhead
  have hlog : outputs (getNext h buf).log = [] := by
    simp [getNext,Heap.read,hhead,outputs,HeapEvent.output]
  refine ⟨by simp [bufDump,hnext,hval],?_⟩
  rw [bufDump,Run.log_bind_of_val _ hnext,outputs_append,hlog,hout,List.nil_append]

def HeapEvent.freed : HeapEvent → Option Addr
  | .free a => some a
  | _ => none

def frees (log : List HeapEvent) : List Addr := log.filterMap HeapEvent.freed

/-- No block is read once it has been freed. -/
def NoReadAfterFree (log : List HeapEvent) : Prop :=
  log.Pairwise fun e e' => ∀ x, e = .free x → e' ≠ .read x

def Heap.without (h : Heap) (w : Write) : Heap :=
  { h with block := update (update h.block w.str none) w.rope none }

theorem Kept.ne (hk : Kept h w) : w.rope ≠ w.str := by
  intro he
  have hblock := hk.str
  rw [← he,hk.rope] at hblock
  cases hblock

theorem Heap.without_block (h : Heap) (w : Write) (x : Addr) :
    (h.without w).block x = if x ∈ w.blocks then none else h.block x := by
  simp only [without,update_apply,Write.blocks,List.mem_cons,List.not_mem_nil,or_false]
  by_cases hr : x = w.rope
  · simp [hr]
  · simp [hr]

theorem Heap.without_other {x : Addr} (hx : x ∉ w.blocks) : (h.without w).block x = h.block x := by
  rw [without_block,if_neg hx]

theorem Kept.without {v : Write} (hv : Kept h v) (hd : ∀ x, x ∈ v.blocks → x ∉ w.blocks) :
    Kept (h.without w) v where
  rope := (Heap.without_other (hd _ (by simp [Write.blocks]))).trans hv.rope
  str := (Heap.without_other (hd _ (by simp [Write.blocks]))).trans hv.str
  pstr := hv.pstr
  tag := hv.tag
  bytes := hv.bytes

/-- One round frees the string and the rope `p` stands on, and fetches from the node
that comes next, which is another one or the head. -/
theorem destroyStep_kept (hk : Kept h w) (hne : w.rope ≠ buf)
    (hlist : hasList (h.block (h.next w.rope)) = true) (hnext : h.next w.rope ∉ w.blocks) :
    (destroyStep buf ⟨h,w.rope,h.next w.rope⟩).val =
        some (.inl ⟨h.without w,h.next w.rope,h.next (h.next w.rope)⟩) ∧
      (destroyStep buf ⟨h,w.rope,h.next w.rope⟩).log =
        [.read w.rope,.free w.str,.free w.rope,.read (h.next w.rope)] := by
  obtain ⟨hs,hr⟩ : h.next w.rope ≠ w.str ∧ h.next w.rope ≠ w.rope := by
    simpa [Write.blocks] using hnext
  constructor
  · simp [destroyStep,getNext,free,Heap.read,Heap.without,hne,hk.rope,hk.pstr,hk.str,hk.ne,
      hasFree,hs,hr,hlist]
  · simp [destroyStep,getNext,free,Heap.read,hne,hk.rope,hk.pstr,hk.str,hk.ne,hasFree,hs,hr,
      hlist]

/-- What the rounds over the ropes of `ws` do, in order. -/
def destroyLog (next : Addr → Addr) : List Write → List HeapEvent
  | [] => []
  | w::ws => .read w.rope::.free w.str::.free w.rope::.read (next w.rope)::destroyLog next ws

/-- Part of the list is freed, and the rest, behind the node `a`, is as it was. -/
structure Rest (h : Heap) (buf a : Addr) (ws : List Write) : Prop where
  head : h.block buf = some .head
  leads : Leads h.next a (ws.map Write.rope) buf
  kept : ∀ w, w ∈ ws → Kept h w
  nodup : (buf::ws.flatMap Write.blocks).Nodup

theorem leads_mem {next : Addr → Addr} (hl : Leads next a (ws.map Write.rope) buf) :
    next a ∈ buf::ws.flatMap Write.blocks := by
  rw [hl.head]
  cases ws with
  | nil => simp
  | cons w ws => simp [Write.blocks]

theorem Write.blocks_apart (hn : (buf::(w::ws).flatMap Write.blocks).Nodup) {x : Addr}
    (hx : x ∈ w.blocks) : x ∉ buf::ws.flatMap Write.blocks := by
  obtain ⟨hbuf,hnodup⟩ := List.nodup_cons.mp hn
  rw [List.flatMap_cons] at hbuf hnodup
  obtain ⟨-,-,hdisj⟩ := List.nodup_append.mp hnodup
  intro hin
  rcases List.mem_cons.mp hin with rfl | hin
  · exact hbuf (List.mem_append_left _ hx)
  · exact hdisj x hx x hin rfl

theorem Rest.tail (hr : Rest h buf a (w::ws)) : Rest (h.without w) buf w.rope ws := by
  have hnot : ∀ x, x ∈ buf::ws.flatMap Write.blocks → x ∉ w.blocks :=
    fun x hx hw => Write.blocks_apart hr.nodup hw hx
  refine ⟨?_,(leads_cons.mp hr.leads).2,fun v hv => ?_,?_⟩
  · rw [Heap.without_other (hnot _ List.mem_cons_self)]
    exact hr.head
  · refine (hr.kept v (List.mem_cons_of_mem _ hv)).without fun x hx => hnot x ?_
    exact List.mem_cons_of_mem _ (List.mem_flatMap.mpr ⟨v,hv,hx⟩)
  · exact hr.nodup.sublist (.cons_cons _ (List.sublist_append_right _ _))

theorem Rest.hasList (hr : Rest h buf a ws) : hasList (h.block (h.next a)) = true := by
  rw [hr.leads.head]
  cases ws with
  | nil =>
    rw [List.map_nil,List.headD_nil,hr.head]
    rfl
  | cons w ws =>
    rw [List.map_cons,List.headD_cons,(hr.kept w List.mem_cons_self).rope]
    rfl

theorem destroyLoop_rest (hr : Rest h buf a ws) {fuel : Nat} (hfuel : ws.length < fuel) :
    ∃ h', Run.loop (destroyStep buf) fuel ⟨h,h.next a,h.next (h.next a)⟩ =
        ⟨some h',destroyLog h.next ws⟩ ∧
      ∀ x, h'.block x = if x ∈ ws.flatMap Write.blocks then none else h.block x := by
  -- `a` is the head or the rope freed last: its link still names `p`, and is not read
  induction ws generalizing h a fuel with
  | nil =>
    obtain ⟨fuel,rfl⟩ : ∃ i, fuel = i+1 := ⟨fuel-1,by omega⟩
    refine ⟨h,?_,fun x => (if_neg (by simp)).symm⟩
    have hstop : ∀ n, destroyStep buf ⟨h,buf,n⟩ = ⟨some (.inr h),[]⟩ := fun n => if_pos rfl
    rw [leads_nil.mp hr.leads,Run.loop_of_inr fuel (by rw [hstop]),hstop]
    rfl
  | cons w ws ih =>
    obtain ⟨fuel,rfl⟩ : ∃ i, fuel = i+1 := ⟨fuel-1,by omega⟩
    have hk := hr.kept w List.mem_cons_self
    have ha : h.next a = w.rope := (leads_cons.mp hr.leads).1
    have hne : w.rope ≠ buf := fun he =>
      Write.blocks_apart hr.nodup (x := w.rope) (by simp [Write.blocks])
        (he ▸ List.mem_cons_self)
    have hmem := leads_mem hr.tail.leads
    have hnext : h.next w.rope ∉ w.blocks := fun hin =>
      Write.blocks_apart hr.nodup hin hmem
    have hlist : SSearcher.hasList (h.block (h.next w.rope)) = true := by
      rw [← Heap.without_other hnext]
      exact hr.tail.hasList
    obtain ⟨hval,hlog⟩ := destroyStep_kept hk hne hlist hnext
    obtain ⟨h',hloop,hblock⟩ := ih hr.tail (Nat.lt_of_succ_lt_succ hfuel)
    refine ⟨h',?_,fun x => ?_⟩
    · rw [ha,Run.loop_of_inl fuel hval,hlog]
      have hloop' : Run.loop (destroyStep buf) fuel ⟨h.without w,h.next w.rope,
        h.next (h.next w.rope)⟩ = ⟨some h',destroyLog h.next ws⟩ := hloop
      rw [hloop']
      rfl
    · rw [hblock,Heap.without_block,List.flatMap_cons]
      by_cases hx : x ∈ w.blocks <;> simp [hx]

theorem frees_destroyLog (next : Addr → Addr) (ws : List Write) :
    frees (destroyLog next ws) = ws.flatMap Write.blocks := by
  induction ws with
  | nil => rfl
  | cons w ws ih =>
    rw [List.flatMap_cons,← ih]
    rfl

theorem read_destroyLog {next : Addr → Addr} (hl : Leads next a (ws.map Write.rope) buf)
    {x : Addr} (hx : .read x ∈ destroyLog next ws) : x ∈ buf::ws.flatMap Write.blocks := by
  induction ws generalizing a with
  | nil => cases hx
  | cons w ws ih =>
    have hrest : ∀ y, y ∈ buf::ws.flatMap Write.blocks →
        y ∈ buf::(w::ws).flatMap Write.blocks := by
      intro y hy
      simp only [List.flatMap_cons,List.mem_cons,List.mem_append] at hy ⊢
      exact hy.imp_right .inr
    obtain ⟨-,hl⟩ := leads_cons.mp hl
    simp only [destroyLog,List.mem_cons,HeapEvent.read.injEq,reduceCtorEq,false_or] at hx
    rcases hx with rfl | rfl | hx
    · simp [Write.blocks]
    · exact hrest _ (leads_mem hl)
    · exact hrest _ (ih hl hx)

theorem noReadAfterFree_destroyLog {next : Addr → Addr}
    (hl : Leads next a (ws.map Write.rope) buf) (hnodup : (buf::ws.flatMap Write.blocks).Nodup) :
    NoReadAfterFree (destroyLog next ws) := by
  induction ws generalizing a with
  | nil => exact .nil
  | cons w ws ih =>
    obtain ⟨-,hl⟩ := leads_cons.mp hl
    have hrest : (buf::ws.flatMap Write.blocks).Nodup :=
      hnodup.sublist (.cons_cons _ (List.sublist_append_right _ _))
    have hlater : ∀ x, x ∈ w.blocks →
        .read x ∉ HeapEvent.read (next w.rope)::destroyLog next ws := by
      intro x hx hin
      refine Write.blocks_apart hnodup hx ?_
      rcases List.mem_cons.mp hin with he | hin
      · rw [HeapEvent.read.inj he]
        exact leads_mem hl
      · exact read_destroyLog hl hin
    refine .cons ?_ (.cons ?_ (.cons ?_ (.cons ?_ (ih hl hrest))))
    · rintro e - x ⟨⟩
    · rintro e he x ⟨⟩ rfl
      exact hlater w.str (by simp [Write.blocks]) (by simpa using he)
    · rintro e he x ⟨⟩ rfl
      exact hlater w.rope (by simp [Write.blocks]) he
    · rintro e - x ⟨⟩

theorem Ropes.rest (hr : Ropes h buf ws) (hnodup : (ws.flatMap Write.blocks).Nodup) :
    Rest h buf buf ws where
  head := hr.head
  leads := hr.ring.forward
  kept := hr.kept
  nodup := by
    refine List.nodup_cons.mpr ⟨fun hin => ?_,hnodup⟩
    obtain ⟨w,hw,hbuf⟩ := List.mem_flatMap.mp hin
    have hk := hr.kept w hw
    have hhead := hr.head
    simp only [Write.blocks,List.mem_cons,List.not_mem_nil,or_false] at hbuf
    rcases hbuf with rfl | rfl
    · rw [hk.str] at hhead
      cases hhead
    · rw [hk.rope] at hhead
      cases hhead

/-- buf_destroy ends, frees the string and the rope of every call, each once and
nothing else, and reads nothing it has freed. -/
theorem bufDestroy_frees (h : Heap) (buf : Addr) (ws : List Write)
    (hbuf : h.block buf = some .head) (hf : Fresh h ws) :
    ∃ h', (bufFill h buf ws).val = some h' ∧ Ropes h' buf ws ∧
      ∀ fuel, ws.length < fuel → ∃ h'', (bufDestroy fuel h' buf).val = some h'' ∧
        frees (bufDestroy fuel h' buf).log = ws.flatMap Write.blocks ∧
        (frees (bufDestroy fuel h' buf).log).Nodup ∧
        NoReadAfterFree (bufDestroy fuel h' buf).log ∧
        ∀ x, h''.block x = if x ∈ ws.flatMap Write.blocks then none else h'.block x := by
  obtain ⟨h',hval,hr⟩ := bufFill_ropes hbuf hf
  refine ⟨h',hval,hr,fun fuel hfuel => ?_⟩
  have hrest := hr.rest hf.nodup
  obtain ⟨h'',hloop,hblock⟩ := destroyLoop_rest hrest hfuel
  have hhead : hasList (h'.block buf) = true := hr.listed.live buf List.mem_cons_self
  have hrun : bufDestroy fuel h' buf =
      ⟨some h'',.read buf::.read (h'.next buf)::destroyLog h'.next ws⟩ := by
    have hnext : ∀ a, hasList (h'.block a) = true →
        getNext h' a = ⟨some (h'.next a),[.read a]⟩ := by
      intro a ha
      simp [getNext,Heap.read,ha]
      rfl
    simp only [bufDestroy,bind,hnext buf hhead,hnext _ hrest.hasList,Option.bind_some,
      Option.elim_some,hloop,List.singleton_append]
  have hfrees : frees (bufDestroy fuel h' buf).log = ws.flatMap Write.blocks := by
    rw [hrun,← frees_destroyLog h'.next ws]
    rfl
  refine ⟨h'',by rw [hrun],hfrees,by rw [hfrees]; exact hf.nodup,?_,hblock⟩
  rw [hrun]
  refine .cons ?_ (.cons ?_ (noReadAfterFree_destroyLog hrest.leads hrest.nodup))
  · rintro e - x ⟨⟩
  · rintro e - x ⟨⟩

def bufHeap (buf : Addr) : Heap where
  block := update (fun _ => none) buf (some .head)
  next := id
  prev := id
  pstr := id
  tag := fun _ => 0
  str := fun _ => []

def twoWrites : List Write := [⟨ofList [104,105],2,1,2⟩,⟨ofList [104,105],1,3,4⟩]

theorem bufDestroy_frees_two :
    ∃ h', (bufFill (bufHeap 0) 0 twoWrites).val = some h' ∧ Ropes h' 0 twoWrites ∧
      ∀ fuel, 2 < fuel → ∃ h'', (bufDestroy fuel h' 0).val = some h'' ∧
        frees (bufDestroy fuel h' 0).log = [2,1,4,3] ∧
        (frees (bufDestroy fuel h' 0).log).Nodup ∧
        NoReadAfterFree (bufDestroy fuel h' 0).log ∧
        ∀ x, h''.block x = if x ∈ [2,1,4,3] then none else h'.block x :=
  bufDestroy_frees (bufHeap 0) 0 twoWrites rfl ⟨by decide,by decide⟩

end SSearcher
