import SSearcher.Listing
set_option autoImplicit false

namespace SSearcher
open Function

/-- The entry a worker stands at before it has left the print section. -/
def Pc.toPrint : Pc → Option FileInfo
  | .unlocking fi => fi
  | .mapping fi | .searching fi _ _ _ _ | .printing fi => some fi
  | _ => none

variable {W : Type} {opt : Options} {tr : Trie} {entries : List Entry} {g g' : Sys W}

/-- The entries a worker has taken from the pipe, the last one first. -/
def Sys.took (g : Sys W) (w : W) : List Nat :=
  ((g.worker w).pc.info.map FileInfo.entry).toList ++ g.finished w

structure Sys.Ordered (g : Sys W) : Prop where
  took : ∀ w, (g.took w).Pairwise (· > ·)
  apart : ∀ v w i, i ∈ g.took v → i ∈ g.took w → v = w
  pipe : (g.pipe.map FileInfo.entry).Pairwise (· < ·)
  behind : ∀ w i, i ∈ g.took w → ∀ fi, fi ∈ g.pipe → i < fi.entry
  known : ∀ i, i ∈ g.shared.printed → ∃ w, i ∈ g.took w
  fresh : ∀ w fi, (g.worker w).pc.toPrint = some fi → fi.entry ∉ g.shared.printed
  printed : ∀ w, (g.shared.printed.filter (· ∈ g.took w)).Pairwise (· < ·)

theorem Sys.ordered_init : (initialSys W).Ordered where
  took := fun _ => List.Pairwise.nil
  apart := fun _ _ _ h => (List.not_mem_nil h).elim
  pipe := List.Pairwise.nil
  behind := fun _ _ h => (List.not_mem_nil h).elim
  known := fun _ h => (List.not_mem_nil h).elim
  fresh := fun _ _ h => by cases h
  printed := fun _ => List.Pairwise.nil

theorem Pc.info_of_toPrint {pc : Pc} {fi : FileInfo} (h : pc.toPrint = some fi) :
    pc.info = some fi := by
  cases pc with
  | unlocking _ | mapping _ | searching _ _ _ _ _ | printing _ => exact h
  | _ => cases h

theorem Sys.mem_took {w : W} {fi : FileInfo} (h : (g.worker w).pc.info = some fi) :
    fi.entry ∈ g.took w := by
  rw [Sys.took,h]
  exact List.mem_cons_self

theorem Work.prints {file : Nat → Option Entry} {x y : Worker} {s s' : Shared}
    (h : Work opt file (x,s) (y,s')) : y.pc.info = x.pc.info ∧
    ((s'.printed = s.printed ∧ ∀ fi, y.pc.toPrint = some fi → x.pc.toPrint = some fi) ∨
    ∃ fi, x.pc.toPrint = some fi ∧ y.pc.toPrint = none ∧ s'.printed = s.printed ++ [fi.entry]) := by
  cases h with
  | start hpc _ _ => exact ⟨by rw [hpc]; rfl,.inl ⟨rfl,fun _ h => by cases h⟩⟩
  | mapEmpty hpc _ _ => exact ⟨by rw [hpc]; rfl,.inl ⟨rfl,fun _ h => by cases h⟩⟩
  | map hpc _ _ => exact ⟨by rw [hpc]; rfl,.inl ⟨rfl,fun _ h => by rw [hpc]; exact h⟩⟩
  | found hpc _ => exact ⟨by rw [hpc]; rfl,.inl ⟨rfl,fun _ h => by rw [hpc]; exact h⟩⟩
  | notFound hpc _ => exact ⟨by rw [hpc]; rfl,.inl ⟨rfl,fun _ h => by rw [hpc]; exact h⟩⟩
  | @print _ _ fi _ hpc _ _ =>
    exact ⟨by rw [hpc]; rfl,.inr ⟨fi,by rw [hpc]; rfl,rfl,rfl⟩⟩
  | nothing hpc _ => exact ⟨by rw [hpc]; rfl,.inl ⟨rfl,fun _ h => by cases h⟩⟩
  | reset hpc _ => exact ⟨by rw [hpc]; rfl,.inl ⟨rfl,fun _ h => by cases h⟩⟩
  | leave hpc => exact ⟨by rw [hpc]; rfl,.inl ⟨rfl,fun _ h => by cases h⟩⟩

section
variable [Fintype W]

theorem Sys.Inv.pipe_sent (hi : g.Inv) {fi : FileInfo} (h : fi ∈ g.pipe) : fi.entry ∈ g.sent := by
  have hpair : fi.pair ∈ g.inPipe := List.mem_map_of_mem h
  have hplace : fi.entry ∈ g.places := by
    rw [Sys.places]
    simp only [Multiset.mem_add]
    exact .inl (.inl (Multiset.mem_map_of_mem Prod.snd hpair))
  rw [hi.placed] at hplace
  exact hplace

theorem Sys.Inv.took_sent (hi : g.Inv) {w : W} {i : Nat} (h : i ∈ g.took w) : i ∈ g.sent := by
  rcases List.mem_append.mp h with h | h
  · rw [Option.mem_toList,Option.map_eq_some_iff] at h
    obtain ⟨fi,hinfo,rfl⟩ := h
    exact hi.sent_of_held (Pc.held_of_info hinfo)
  · have hplace : i ∈ g.places := by
      rw [Sys.places,Multiset.mem_add]
      exact .inr (Multiset.mem_sum.mpr ⟨w,Finset.mem_univ w,h⟩)
    rw [hi.placed] at hplace
    exact hplace

end

theorem Sys.Ordered.same (ho : g.Ordered) (htook : g'.took = g.took) (hpipe : g'.pipe = g.pipe)
    (hprinted : g'.shared.printed = g.shared.printed)
    (hfresh : ∀ w fi, (g'.worker w).pc.toPrint = some fi → (g.worker w).pc.toPrint = some fi) :
    g'.Ordered where
  took := htook ▸ ho.took
  apart := htook ▸ ho.apart
  pipe := hpipe ▸ ho.pipe
  behind := htook ▸ hpipe ▸ ho.behind
  known := htook ▸ hprinted ▸ ho.known
  fresh := fun w fi h => hprinted ▸ ho.fresh w fi (hfresh w fi h)
  printed := htook ▸ hprinted ▸ ho.printed

variable [DecidableEq W]

theorem took_setPc {w : W} {pc : Pc} (h : pc.info = (g.worker w).pc.info) :
    (g.setPc w pc).took = g.took := by
  funext v
  rcases eq_or_ne v w with rfl | hne
  · simp only [Sys.took,Sys.setPc,update_self,h]
  · simp only [Sys.took,Sys.setPc,update_of_ne hne]

theorem took_finish {w : W} {fi : FileInfo} (h : (g.worker w).pc.info = some fi) :
    (((g.setPc w .locking).close fi.fd).finish w fi).took = g.took := by
  funext v
  rcases eq_or_ne v w with rfl | hne
  · simp only [Sys.took,Sys.finish,Sys.close,Sys.setPc,update_self,h]
    rfl
  · simp only [Sys.took,Sys.finish,Sys.close,Sys.setPc,update_of_ne hne]

theorem toPrint_update {w v : W} {x : Worker} {fi : FileInfo}
    (hx : x.pc.toPrint = some fi → (g.worker w).pc.toPrint = some fi)
    (h : (update g.worker w x v).pc.toPrint = some fi) : (g.worker v).pc.toPrint = some fi := by
  rcases eq_or_ne v w with rfl | hne
  · rw [update_self] at h
    exact hx h
  · rwa [update_of_ne hne] at h

theorem took_receive {w : W} {fi : FileInfo} (h : (g.worker w).pc = .reading) (v : W) :
    (g.setPc w (.unlocking (some fi))).took v =
      if v = w then fi.entry :: g.took w else g.took v := by
  split
  · rename_i he
    subst he
    simp only [Sys.took,Sys.setPc,update_self,h]
    rfl
  · rename_i hne
    simp only [Sys.took,Sys.setPc,update_of_ne hne]

theorem Sys.Ordered.receive {w : W} {fi : FileInfo} {rest : List FileInfo} (ho : g.Ordered)
    (hpc : (g.worker w).pc = .reading) (hp : g.pipe = fi :: rest) :
    ({ g.setPc w (.unlocking (some fi)) with pipe := rest } : Sys W).Ordered := by
  have htook := @took_receive _ g _ w fi hpc
  have hpipe := ho.pipe
  rw [hp,List.map_cons,List.pairwise_cons] at hpipe
  have hbehind : ∀ v i, i ∈ g.took v → i < fi.entry :=
    fun v i hi => ho.behind v i hi fi (by rw [hp]; exact List.mem_cons_self)
  have hnew : fi.entry ∉ g.shared.printed := by
    intro hmem
    obtain ⟨v,hv⟩ := ho.known _ hmem
    exact Nat.lt_irrefl _ (hbehind v _ hv)
  have hmem : ∀ v i, i ∈ (g.setPc w (.unlocking (some fi))).took v ↔
      v = w ∧ i = fi.entry ∨ i ∈ g.took v := by
    intro v i
    rw [htook]
    split
    · rename_i he
      rw [he,List.mem_cons,and_iff_right rfl]
    · rename_i hne
      rw [or_iff_right fun h => hne h.1]
  refine ⟨fun v => ?_,fun u v i hu hv => ?_,hpipe.2,fun v i hi fi' hfi' => ?_,fun i hi => ?_,
    fun v fi' h => ?_,fun v => ?_⟩
  · change ((g.setPc w (.unlocking (some fi))).took v).Pairwise _
    rw [htook]
    split
    · exact List.pairwise_cons.mpr ⟨hbehind w,ho.took w⟩
    · exact ho.took v
  · rcases (hmem u i).mp hu with ⟨rfl,rfl⟩ | hu
    · rcases (hmem v fi.entry).mp hv with ⟨rfl,-⟩ | hv
      · rfl
      · exact absurd (hbehind v _ hv) (Nat.lt_irrefl _)
    · rcases (hmem v i).mp hv with ⟨-,rfl⟩ | hv
      · exact absurd (hbehind u _ hu) (Nat.lt_irrefl _)
      · exact ho.apart u v i hu hv
  · rcases (hmem v i).mp hi with ⟨-,rfl⟩ | hi
    · exact hpipe.1 _ (List.mem_map_of_mem hfi')
    · exact ho.behind v i hi fi' (by rw [hp]; exact List.mem_cons_of_mem _ hfi')
  · obtain ⟨v,hv⟩ := ho.known i hi
    exact ⟨v,(hmem v i).mpr (.inr hv)⟩
  · change (update g.worker w _ v).pc.toPrint = some fi' at h
    rcases eq_or_ne v w with rfl | hne
    · rw [update_self] at h
      obtain rfl : fi = fi' := Option.some.inj h
      exact hnew
    · rw [update_of_ne hne] at h
      exact ho.fresh v fi' h
  · have hsame : g.shared.printed.filter (· ∈ (g.setPc w (.unlocking (some fi))).took v) =
        g.shared.printed.filter (· ∈ g.took v) := by
      refine List.filter_congr fun i hi => ?_
      rw [decide_eq_decide,hmem]
      exact or_iff_right fun h => hnew (h.2 ▸ hi)
    exact hsame ▸ ho.printed v

theorem Sys.Ordered.work {w : W} {x : Worker} {s : Shared} (ho : g.Ordered)
    (h : Work opt (g.file entries) (g.worker w,g.shared) (x,s)) :
    ({ g with worker := update g.worker w x,shared := s } : Sys W).Ordered := by
  obtain ⟨hinfo,hprints⟩ := h.prints
  have htook : ({ g with worker := update g.worker w x,shared := s } : Sys W).took = g.took := by
    funext v
    rcases eq_or_ne v w with rfl | hne
    · simp only [Sys.took,update_self,hinfo]
    · simp only [Sys.took,update_of_ne hne]
  rcases hprints with ⟨hsame,hto⟩ | ⟨fi,hto,hnone,hnew⟩
  · exact ho.same htook rfl hsame fun v fi => toPrint_update (hto fi)
  · have hmine := Sys.mem_took (Pc.info_of_toPrint hto)
    have hunprinted := ho.fresh w fi hto
    refine ⟨htook ▸ ho.took,htook ▸ ho.apart,ho.pipe,htook ▸ ho.behind,fun i hi => ?_,
      fun v fi' hv hi => ?_,fun v => ?_⟩
    · rw [htook]
      rw [hnew,List.mem_append,List.mem_singleton] at hi
      rcases hi with hi | rfl
      · exact ho.known i hi
      · exact ⟨w,hmine⟩
    · change (update g.worker w x v).pc.toPrint = some fi' at hv
      rcases eq_or_ne v w with rfl | hne
      · rw [update_self,hnone] at hv
        cases hv
      · rw [update_of_ne hne] at hv
        rw [hnew,List.mem_append,List.mem_singleton] at hi
        rcases hi with hi | heq
        · exact ho.fresh v fi' hv hi
        · exact hne (ho.apart v w _ (Sys.mem_took (Pc.info_of_toPrint hv)) (heq ▸ hmine))
    · rw [htook,hnew,List.filter_append,List.pairwise_append]
      refine ⟨ho.printed v,List.Pairwise.filter _ (List.pairwise_singleton _ _),
        fun i hi j hj => ?_⟩
      obtain ⟨hi,hv⟩ := List.mem_filter.mp hi
      obtain ⟨hj,hv'⟩ := List.mem_filter.mp hj
      obtain rfl := List.mem_singleton.mp hj
      obtain rfl := ho.apart v w _ (of_decide_eq_true hv') hmine
      have hsorted := ho.took v
      rw [Sys.took,Pc.info_of_toPrint hto] at hsorted
      have hhead := of_decide_eq_true hv
      rw [Sys.took,Pc.info_of_toPrint hto] at hhead
      rcases List.mem_cons.mp hhead with rfl | htail
      · exact absurd hi hunprinted
      · exact (List.pairwise_cons.mp hsorted).1 i htail

theorem Sys.Ordered.step [Fintype W] (ho : g.Ordered) (hi : g.Inv)
    (h : Step opt tr entries g g') : g'.Ordered := by
  cases h with
  | @send fi hd =>
    have hsent := hi.sent
    rw [hd] at hsent
    refine ⟨ho.took,ho.apart,?_,fun w i hi' fi' hfi' => ?_,ho.known,ho.fresh,ho.printed⟩
    · rw [List.map_append,List.pairwise_append]
      refine ⟨ho.pipe,List.pairwise_singleton _ _,fun i hi' j hj => ?_⟩
      obtain ⟨fi',hfi',rfl⟩ := List.mem_map.mp hi'
      obtain rfl := List.mem_singleton.mp hj
      exact hsent _ (hi.pipe_sent hfi')
    · rcases List.mem_append.mp hfi' with hfi' | hfi'
      · exact ho.behind w i hi' fi' hfi'
      · obtain rfl := List.mem_singleton.mp hfi'
        exact hsent i (hi.took_sent hi')
  | @lock w hpc _ =>
    exact ho.same (took_setPc (w := w) (by rw [hpc]; rfl)) rfl rfl
      fun v fi => toPrint_update fun h => by cases h
  | receive hpc hp => exact ho.receive hpc hp
  | @endOfPipe w hpc _ _ =>
    exact ho.same (took_setPc (w := w) (by rw [hpc]; rfl)) rfl rfl
      fun v fi => toPrint_update fun h => by cases h
  | @unlock w fi hpc =>
    exact ho.same (took_setPc (w := w) (by rw [hpc]; rfl)) rfl rfl
      fun v fi => toPrint_update fun h => by rw [hpc]; exact h
  | @breaks w hpc =>
    exact ho.same (took_setPc (w := w) (by rw [hpc]; rfl)) rfl rfl
      fun v fi => toPrint_update fun h => by cases h
  | work hwork => exact ho.work hwork
  | @drop w fi hpc =>
    exact ho.same (took_finish (by rw [hpc]; rfl)) rfl rfl
      fun v fi => toPrint_update fun h => by cases h
  | @unmap w fi hpc =>
    exact ho.same (took_finish (by rw [hpc]; rfl)) rfl rfl
      fun v fi => toPrint_update fun h => by cases h
  | _ => exact ho.same rfl rfl rfl fun _ _ h => h

theorem Reachable.ordered [Fintype W] (h : Reachable opt tr entries g) : g.Ordered := by
  induction h with
  | refl => exact Sys.ordered_init
  | tail hr hstep ih => exact ih.step (Reachable.inv hr) hstep

/-- In every order of the steps: a worker takes files in the order of the tree, none that
is behind one still in the pipe; what it prints comes in that order, each file at most
once; and a worker that is alone prints in the order of the tree. -/
theorem tree_order [Fintype W] (h : Reachable opt tr entries g) :
    (∀ w, (g.took w).Pairwise (· > ·)) ∧
    (∀ w i, i ∈ g.took w → ∀ fi, fi ∈ g.pipe → i < fi.entry) ∧
    (∀ w, (g.shared.printed.filter (· ∈ g.took w)).Pairwise (· < ·)) ∧
    ∀ w : W, (∀ v, v = w) → g.shared.printed.Pairwise (· < ·) := by
  have ho := h.ordered
  refine ⟨ho.took,ho.behind,ho.printed,fun w halone => ?_⟩
  have hall : g.shared.printed.filter (· ∈ g.took w) = g.shared.printed := by
    refine List.filter_eq_self.mpr fun i hi => decide_eq_true ?_
    obtain ⟨v,hv⟩ := ho.known i hi
    exact halone v ▸ hv
  exact hall ▸ ho.printed w

theorem tree_order_a : ∃ tr, magicInit none = some tr ∧ ∃ g : Sys (Fin 1),
    Reachable optionsA tr (List.replicate 2 (entryOf [97,10] (by decide))) g ∧ g.Ended ∧
    g.shared.printed = [0,1] := by
  obtain ⟨tr,hinit,-⟩ := magicInit_words
  obtain ⟨g,hg,hended⟩ := exists_ended (W := Fin 1) Nat.one_pos (allFit_lineA tr 2) .refl
  have hr := reachable_of_stepIn hg
  have hpairs := (tree_order hr).2.2.2 0 fun v => Subsingleton.elim v 0
  have hperm : g.shared.printed.Perm [0,1] := by
    refine (List.perm_ext_iff_of_nodup (hpairs.imp Nat.ne_of_lt) (by decide)).mpr fun i => ?_
    rw [printed_lineA hinit hr hended,List.mem_cons,List.mem_singleton]
    omega
  refine ⟨tr,hinit,g,hr,hended,hperm.eq_of_pairwise (fun i j _ _ hij hji => ?_) hpairs (by decide)⟩
  omega

end SSearcher
