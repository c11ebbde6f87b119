import SSearcher.NodesSpec
set_option autoImplicit false

namespace SSearcher
open Runs Memory Function Links

/-- The calls a user of a trie makes between trie_init and trie_destroy. -/
inductive TrieCall where
  | insert : Target → TrieCall
  | lookup : Target → TrieCall
  | scan : Target → TrieCall

def Trie.call (t : Trie) : TrieCall → Trie × Option (List UInt8)
  | .insert w => trieInsert t w
  | .lookup w => trieLookup t w
  | .scan w => trieScan t w

def Trie.calls (t : Trie) : List TrieCall → Trie × List (Option (List UInt8))
  | [] => (t,[])
  | k::ks =>
    let r := (t.call k).1.calls ks
    (r.1,(t.call k).2::r.2)

def TrieCall.room : TrieCall → Nat
  | .insert w => w.val.length
  | _ => 0

def room : List TrieCall → Nat
  | [] => 0
  | k::ks => k.room + room ks

namespace NodeHeap
variable {h h' h'' : NodeHeap} {root a b x y : Addr} {t : Trie} {v w : List UInt8} {c : UInt8}
  {n d : Nat} {log : List HeapEvent}

def call (h : NodeHeap) (root : Addr) : TrieCall → Heaped (Option Addr × NodeHeap)
  | .insert w => h.trieInsert root w
  | .lookup w => h.trieLookup root w
  | .scan w => h.trieScan root w

def calls (h : NodeHeap) (root : Addr) : List TrieCall → Heaped (List (Option Addr) × NodeHeap)
  | [] => return ([],h)
  | k::ks => do
    let (r,h) ← h.call root k
    let (rs,h) ← h.calls root ks
    return (r::rs,h)

/-- The blocks from `root` on are those of the trie. -/
def Models (h : NodeHeap) (root : Addr) (t : Trie) : Prop := Shape h root t.paths t.words

theorem Shape.congr {P L P' L' : Set (List UInt8)} (hs : Shape h root P L) (hP : P = P')
    (hL : L = L') : Shape h root P' L' := hP ▸ hL ▸ hs

theorem Stocked.less {m : Nat} (hst : Stocked h n) (hle : m ≤ n) : Stocked h m :=
  ⟨hst.nodup,hst.fresh,Nat.le_trans hle hst.enough⟩

theorem call_models (hm : h.Models root t) (k : TrieCall) (hst : Stocked h (n+k.room)) :
    ∃ r h' log, (h.call root k).Gives (r,h') log ∧ h'.Models root (t.call k).1 ∧ Stocked h' n ∧
      Grown h h' root log ∧ Points h' root r (t.call k).2 := by
  have hfind : ∀ scan w, ∃ r h' log, (trieWalk false scan h root w).Gives (r,h') log ∧
      h'.Models root (SSearcher.trieWalk false scan t w).1 ∧ Stocked h' n ∧ Grown h h' root log ∧
      Points h' root r (SSearcher.trieWalk false scan t w).2 := by
    intro scan w
    obtain ⟨r,log,hgives,hquiet,hr⟩ := trieWalk_find scan hm w
    refine ⟨r,h,log,hgives,?_,hst.less (Nat.le_add_right _ _),.same rfl rfl rfl rfl hquiet,hr⟩
    rw [trieWalk_reads]
    exact hm
  cases k with
  | lookup w => exact hfind false w.val
  | scan w => exact hfind true w.val
  | insert w =>
    obtain ⟨r,h',log,hgives,hs,hst',hgrown,hold,hnew⟩ :=
      trieWalk_create (u := []) (w := w.val) hm rfl hst
    refine ⟨r,h',log,hgives,hs.congr ?_ ?_,hst',hgrown,?_⟩
    · ext v
      change _ ↔ v ∈ (SSearcher.trieWalk true false t w.val).1.paths
      rw [trieWalk_paths]
      simp [way]
    · exact (trieWalk_words t w.val).symm
    · by_cases hin : w.val ∈ t.words
      · have hnone : (t.call (.insert w)).2 = none := by
          rw [Option.eq_none_iff_forall_ne_some]
          intro v hv
          exact ((trieWalk_insert t w.val v).mp hv).2 hin
        rw [hnone,hold hin]
        exact ⟨rfl,rfl⟩
      · have hsome : (t.call (.insert w)).2 = some w.val :=
          (trieWalk_insert t w.val w.val).mpr ⟨rfl,hin⟩
        obtain ⟨hr,hrs⟩ := hnew hin
        rw [hsome]
        exact ⟨hr,hrs⟩

theorem calls_models (hm : h.Models root t) {ks : List TrieCall} (hst : Stocked h (n+room ks)) :
    ∃ rs h' log, (h.calls root ks).Gives (rs,h') log ∧ h'.Models root (t.calls ks).1 ∧
      Stocked h' n ∧ Grown h h' root log ∧ List.Forall₂ (Points h' root) rs (t.calls ks).2 := by
  induction ks generalizing h t with
  | nil => exact ⟨[],h,[],.pure _,hm,hst,.same rfl rfl rfl rfl ⟨rfl,rfl⟩,.nil⟩
  | cons k ks ih =>
    have hroom : n+room (k::ks) = n+room ks+k.room := by
      rw [room,Nat.add_comm k.room,← Nat.add_assoc]
    rw [hroom] at hst
    obtain ⟨r,h₁,log₁,hgives₁,hm₁,hst₁,hgrown₁,hr⟩ := call_models hm k hst
    obtain ⟨rs,h₂,log₂,hgives₂,hm₂,hst₂,hgrown₂,hrs⟩ := ih hm₁ hst₁
    refine ⟨r::rs,h₂,_,hgives₁.bind (hgives₂.bind (.pure _)),hm₂,hst₂,?_,
      .cons (hr.grown hgrown₂) hrs⟩
    exact hgrown₁.trans (hgrown₂.trans (.same rfl rfl rfl rfl ⟨rfl,rfl⟩))

/-- What a run that has made the tree at `root` has got from malloc. -/
structure Made (h h' : NodeHeap) (root : Addr) (log : List HeapEvent) : Prop where
  supply : h.supply = allocs log ++ h'.supply
  live : ∀ a, h'.live a = true ↔ h.live a = true ∨ a ∈ allocs log
  nodes : ∀ a, (∃ v, h'.nodeAt root v = some a) ↔ a ∈ allocs log
  noFree : frees log = []
  tr : h'.tr = some root

theorem Made.grown {log' : List HeapEvent} (hmade : Made h h' root log)
    (hg : Grown h' h'' root log') : Made h h'' root (log++log') where
  supply := by rw [hmade.supply,hg.supply,allocs_append,List.append_assoc]
  live := fun a => by rw [hg.live,hmade.live,allocs_append,List.mem_append,or_assoc]
  nodes := fun a => by rw [hg.nodes,hmade.nodes,allocs_append,List.mem_append]
  noFree := by rw [frees_append,hmade.noFree,hg.noFree]; rfl
  tr := hg.tr.trans hmade.tr

def plant (h : NodeHeap) (b : Addr) (supply : List Addr) : NodeHeap where
  tr := some b
  live := update h.live b true
  isleaf := update h.isleaf b false
  children := update h.children b fun _ => none
  supply := supply

theorem gives_trieInit_tr {supply : List Addr} (htr : h.tr = none)
    (hsupply : h.supply = b::supply) (hfresh : h.live b = false) :
    (h.trieInit .tr).Gives (b,h.plant b supply) [.alloc b,.write b] := by
  have hslot : (h.readSlot .tr).Gives none [] := congrArg Pure.pure htr
  refine hslot.bind ((gives_alloc hsupply hfresh).bind
    ((Run.Gives.pure _).bind ((gives_write ?_).bind (.pure _))))
  exact update_self ..

theorem nodeAt_plant (h : NodeHeap) (b : Addr) (supply : List Addr) (v : List UInt8) :
    (h.plant b supply).nodeAt b v = if v = [] then some b else none := by
  cases v with
  | nil => rfl
  | cons c v =>
    have hnone : (h.plant b supply).children b = fun _ => none := update_self ..
    rw [nodeAt,follow_cons,hnone,if_neg (List.cons_ne_nil c v)]
    rfl

theorem trieInit_made (htr : h.tr = none) (hst : Stocked h (n+1)) : ∃ root h' log,
    (h.trieInit .tr).Gives (root,h') log ∧ h'.Models root (SSearcher.trieInit none) ∧
    Stocked h' n ∧ Made h h' root log := by
  have hnodup := hst.nodup
  have henough := hst.enough
  cases hsupply : h.supply with
  | nil =>
    rw [hsupply] at henough
    cases henough
  | cons b supply =>
    have hfresh := hst.fresh b (by rw [hsupply]; exact List.mem_cons_self)
    have hat : ∀ v x, (h.plant b supply).nodeAt b v = some x ↔ v = [] ∧ x = b := by
      intro v x
      rw [nodeAt_plant]
      split <;> simp [*,eq_comm]
    have hlive : ∀ x, (h.plant b supply).live x = true ↔ h.live x = true ∨ x ∈ [b] := by
      intro x
      rw [List.mem_singleton]
      change update h.live b true x = true ↔ _
      rw [update_apply]
      split <;> simp [*]
    rw [hsupply] at hnodup henough
    refine ⟨b,_,_,gives_trieInit_tr htr hsupply hfresh,?_,?_,hsupply,hlive,fun x => ?_,rfl,rfl⟩
    · refine ⟨fun v w x hv hw => ?_,fun v x hv => ?_,fun v => ?_,fun v x hv => ?_,?_⟩
      · rw [((hat v x).mp hv).1,((hat w x).mp hw).1]
      · rw [((hat v x).mp hv).2]
        exact update_self ..
      · rw [nodeAt_plant,paths_trieInit]
        split <;> simp [*]
      · rw [((hat v x).mp hv).2,words_trieInit]
        change update h.isleaf b false b = true ↔ _
        rw [update_self]
        simp
      · rw [words_trieInit]
        exact Set.empty_subset _
    · refine ⟨(List.nodup_cons.mp hnodup).2,fun x hx => ?_,Nat.le_of_succ_le_succ henough⟩
      have hne : x ≠ b := fun he => (List.nodup_cons.mp hnodup).1 (he ▸ hx)
      exact (update_of_ne hne ..).trans
        (hst.fresh x (by rw [hsupply]; exact List.mem_cons_of_mem _ hx))
    · simp only [hat,exists_eq_left]
      exact List.mem_singleton.symm

theorem mem_indices (c : UInt8) : c ∈ indices :=
  List.mem_map.mpr ⟨c.toNat,List.mem_range.mpr c.toNat_lt,UInt8.ofNat_toNat⟩

theorem nodup_indices : indices.Nodup := by
  refine List.Nodup.map_on (fun i hi j hj he => ?_) List.nodup_range
  have hmod := congrArg UInt8.toNat he
  have := List.mem_range.mp hi
  have := List.mem_range.mp hj
  simp only [UInt8.toNat_ofNat'] at hmod
  omega

def drop (h : NodeHeap) (l : List Addr) : NodeHeap :=
  { h with live := fun a => if a ∈ l then false else h.live a }

theorem drop_nil (h : NodeHeap) : h.drop [] = h := by
  have hlive : (fun a => if a ∈ ([] : List Addr) then false else h.live a) = h.live :=
    funext fun a => if_neg List.not_mem_nil
  rw [drop,hlive]

theorem drop_drop (h : NodeHeap) (l l' : List Addr) : (h.drop l).drop l' = h.drop (l++l') := by
  have hlive : (fun a => if a ∈ l' then false else if a ∈ l then false else h.live a) =
      fun a => if a ∈ l++l' then false else h.live a := by
    funext a
    by_cases hl : a ∈ l <;> by_cases hl' : a ∈ l' <;> simp [hl,hl']
  exact congrArg (fun live => { h with live }) hlive

theorem gives_free_drop (hlive : h.live a = true) : (h.free a).Gives (h.drop [a]) [.free a] := by
  have heq : update h.live a false = fun x => if x ∈ [a] then false else h.live x := by
    funext x
    rw [update_apply]
    simp
  have hgives := gives_free hlive
  rw [heq] at hgives
  exact hgives

/-- What trie_destroy does, in order. -/
def destroyLog (children : Addr → UInt8 → Option Addr) : Nat → Addr → List HeapEvent
  | 0,_ => []
  | d+1,a => (indices.flatMap fun i =>
      .read a::(children a i).elim [] (destroyLog children d)) ++ [.free a]

def part (h : NodeHeap) (d : Nat) (a : Addr) (i : UInt8) : List Addr :=
  (h.children a i).elim [] (postorder h.children indices d)

theorem destroyChildren_gives {destroy : NodeHeap → Addr → Heaped NodeHeap} {is : List UInt8}
    {l : List Addr} (hlive : (h.drop l).live a = true) (hnodup : is.Nodup)
    (hdestroy : ∀ i b l, h.children a i = some b → (∀ x, x ∈ h.part d a i → x ∉ l) →
      (destroy (h.drop l) b).Gives (h.drop (l++h.part d a i)) (destroyLog h.children d b))
    (hroot : ∀ i, i ∈ is → a ∉ h.part d a i)
    (hapart : ∀ i j, i ≠ j → ∀ x, x ∈ h.part d a i → x ∉ h.part d a j)
    (hl : ∀ i, i ∈ is → ∀ x, x ∈ h.part d a i → x ∉ l) :
    (destroyChildren destroy a (h.drop l) is).Gives (h.drop (l++is.flatMap (h.part d a)))
      (is.flatMap fun i => .read a::(h.children a i).elim [] (destroyLog h.children d)) := by
  induction is generalizing l with
  | nil =>
    rw [List.flatMap_nil,List.append_nil]
    exact .pure _
  | cons i is ih =>
    obtain ⟨hi,hnodup⟩ := List.nodup_cons.mp hnodup
    have hread : ((h.drop l).read (fun x => h.children x i) a).Gives (h.children a i) [.read a] :=
      gives_read hlive
    rw [List.flatMap_cons,List.flatMap_cons]
    cases hc : h.children a i with
    | none =>
      have hpart : h.part d a i = [] := by rw [part,hc]; rfl
      rw [hc] at hread
      rw [hpart,List.nil_append]
      exact hread.bind (ih hlive hnodup (fun j hj => hroot j (List.mem_cons_of_mem _ hj))
        fun j hj => hl j (List.mem_cons_of_mem _ hj))
    | some b =>
      rw [hc] at hread
      have hrest := @ih (l++h.part d a i) ?_ hnodup
        (fun j hj => hroot j (List.mem_cons_of_mem _ hj)) ?_
      · rw [List.append_assoc] at hrest
        exact hread.bind ((hdestroy i b l hc (hl i List.mem_cons_self)).bind hrest)
      · rw [← drop_drop]
        change (if a ∈ h.part d a i then false else (h.drop l).live a) = true
        rw [if_neg (hroot i List.mem_cons_self)]
        exact hlive
      · intro j hj x hx hin
        rcases List.mem_append.mp hin with hin | hin
        · exact hl j (List.mem_cons_of_mem _ hj) x hx hin
        · exact hapart j i (fun he => hi (he ▸ hj)) x hx hin

theorem mem_part_iff {i : UInt8} (hdepth : ∀ v x, h.nodeAt a v = some x → v.length < d+1) :
    x ∈ h.part d a i ↔ ∃ v, h.nodeAt a (i::v) = some x := by
  constructor
  · exact mem_part mem_indices
  · rintro ⟨v,hv⟩
    obtain ⟨b,hb,hx⟩ := Option.bind_eq_some_iff.mp hv
    rw [part,hb,Option.elim_some]
    exact (mem_postorder mem_indices).mpr ⟨v,Nat.lt_of_succ_lt_succ (hdepth _ x hv),hx⟩

theorem trieDestroy_gives (ht : Tree h.children a) {l : List Addr}
    (hlive : ∀ v x, h.nodeAt a v = some x → h.live x = true ∧ x ∉ l)
    (hdepth : ∀ v x, h.nodeAt a v = some x → v.length < d) :
    (trieDestroy d (h.drop l) a).Gives (h.drop (l++postorder h.children indices d a))
      (destroyLog h.children d a) := by
  induction d generalizing a l with
  | zero => exact absurd (hdepth [] a rfl) (Nat.not_lt_zero 0)
  | succ d ih =>
    have hmem : ∀ {i x}, x ∈ h.part d a i ↔ ∃ v, h.nodeAt a (i::v) = some x :=
      mem_part_iff hdepth
    have hroot : ∀ i, a ∉ h.part d a i := by
      intro i hin
      obtain ⟨v,hv⟩ := hmem.mp hin
      exact List.cons_ne_nil i v (ht.no_return hv)
    have halive : ∀ {l : List Addr}, a ∉ l → (h.drop l).live a = true := fun hno =>
      (if_neg hno).trans (hlive [] a rfl).1
    have hchildren := @destroyChildren_gives h a d (trieDestroy d) indices l
      (halive (hlive [] a rfl).2) nodup_indices ?_ (fun i _ => hroot i) ?_ ?_
    · rw [postorder,← List.append_assoc,← drop_drop]
      refine hchildren.bind (gives_free_drop (halive fun hin => ?_))
      rcases List.mem_append.mp hin with hin | hin
      · exact (hlive [] a rfl).2 hin
      · obtain ⟨i,-,hin⟩ := List.mem_flatMap.mp hin
        exact hroot i hin
    · intro i b l' hb hno
      have hat : ∀ v, h.nodeAt a (i::v) = h.nodeAt b v := fun v => by
        rw [nodeAt,follow_cons,hb]
        rfl
      have hpart : h.part d a i = postorder h.children indices d b := by rw [part,hb]; rfl
      rw [hpart]
      refine ih (ht.below (u := [i]) (hat [])) (fun v x hv => ?_) fun v x hv => ?_
      · have hx := (hat v).trans hv
        exact ⟨(hlive _ x hx).1,hno x (hmem.mpr ⟨v,hx⟩)⟩
      · exact Nat.lt_of_succ_lt_succ (hdepth _ x ((hat v).trans hv))
    · intro i j hne x hi hj
      obtain ⟨v,hv⟩ := hmem.mp hi
      obtain ⟨w,hw⟩ := hmem.mp hj
      exact hne (List.cons.inj (ht _ _ x hv hw)).1
    · intro i _ x hx
      obtain ⟨v,hv⟩ := hmem.mp hx
      exact (hlive _ x hv).2

theorem frees_destroyLog (children : Addr → UInt8 → Option Addr) (d : Nat) (a : Addr) :
    frees (destroyLog children d a) = postorder children indices d a := by
  induction d generalizing a with
  | zero => rfl
  | succ d ih =>
    have hflat : ∀ is : List UInt8, frees (is.flatMap fun i =>
        .read a::(children a i).elim [] (destroyLog children d)) =
        is.flatMap fun i => (children a i).elim [] (postorder children indices d) := by
      intro is
      induction is with
      | nil => rfl
      | cons i is ihis =>
        rw [List.flatMap_cons,List.flatMap_cons,frees_append,ihis]
        refine congrArg (· ++ _) ?_
        cases hc : children a i with
        | none => rfl
        | some b => exact ih b
    rw [destroyLog,postorder,frees_append,hflat]
    rfl

theorem mem_destroyLog {children : Addr → UInt8 → Option Addr} {e : HeapEvent}
    (he : e ∈ destroyLog children d a) :
    ∃ v x, follow children a v = some x ∧ (e = .read x ∨ e = .free x) := by
  induction d generalizing a with
  | zero => cases he
  | succ d ih =>
    rcases List.mem_append.mp he with he | he
    · obtain ⟨i,-,he⟩ := List.mem_flatMap.mp he
      rcases List.mem_cons.mp he with rfl | he
      · exact ⟨[],a,rfl,.inl rfl⟩
      · cases hc : children a i with
        | none =>
          rw [hc] at he
          cases he
        | some b =>
          rw [hc] at he
          obtain ⟨v,x,hv,hx⟩ := ih he
          exact ⟨i::v,x,by rw [follow_cons,hc]; exact hv,hx⟩
    · exact ⟨[],a,rfl,.inr (List.mem_singleton.mp he)⟩

theorem noReadAfterFree_tree {children : Addr → UInt8 → Option Addr} (ht : Tree children a) :
    NoReadAfterFree (destroyLog children d a) := by
  induction d generalizing a with
  | zero => exact .nil
  | succ d ih =>
    have hsub : ∀ {i e}, e ∈ (children a i).elim [] (destroyLog children d) →
        ∃ v x, follow children a (i::v) = some x ∧ (e = .read x ∨ e = .free x) := by
      intro i e he
      cases hc : children a i with
      | none =>
        rw [hc] at he
        cases he
      | some b =>
        rw [hc] at he
        obtain ⟨v,x,hv,hx⟩ := mem_destroyLog he
        exact ⟨v,x,by rw [follow_cons,hc]; exact hv,hx⟩
    refine List.pairwise_append.mpr ⟨List.pairwise_flatMap.mpr ⟨fun i _ => ?_,?_⟩,
      List.pairwise_singleton _ _,?_⟩
    · refine .cons ?_ ?_
      · rintro e - x ⟨⟩
      · cases hc : children a i with
        | none => exact .nil
        | some b => exact ih (ht.below (u := [i]) (by rw [follow_cons,hc]; rfl))
    · refine nodup_indices.imp ?_
      rintro i j hne e he e' he' x rfl rfl
      rcases List.mem_cons.mp he with he | he
      · cases he
      obtain ⟨v,y,hv,hy⟩ := hsub he
      obtain rfl : x = y := by simpa using hy
      rcases List.mem_cons.mp he' with he' | he'
      · cases he'
        exact List.cons_ne_nil i v (ht.no_return hv)
      · obtain ⟨w,y,hw,hy⟩ := hsub he'
        obtain rfl : x = y := by simpa using hy
        exact hne (List.cons.inj (ht _ _ x hv hw)).1
    · rintro e - e' he' x - rfl
      rw [List.mem_singleton] at he'
      cases he'

def build (h : NodeHeap) (ks : List TrieCall) : Heaped (Addr × List (Option Addr) × NodeHeap) := do
  let (root,h) ← h.trieInit .tr
  let (rs,h) ← h.calls root ks
  return (root,rs,h)

theorem build_made {ks : List TrieCall} (htr : h.tr = none) (hst : Stocked h (n+room ks+1)) :
    ∃ root rs h' log, (h.build ks).Gives (root,rs,h') log ∧
      h'.Models root ((SSearcher.trieInit none).calls ks).1 ∧
      List.Forall₂ (Points h' root) rs ((SSearcher.trieInit none).calls ks).2 ∧
      Made h h' root log := by
  obtain ⟨root,h₁,log₁,hgives₁,hm₁,hst₁,hmade₁⟩ := trieInit_made htr hst
  obtain ⟨rs,h₂,log₂,hgives₂,hm₂,-,hgrown₂,hrs⟩ := calls_models hm₁ hst₁
  refine ⟨root,rs,h₂,_,hgives₁.bind (hgives₂.bind (.pure _)),hm₂,hrs,?_⟩
  exact hmade₁.grown (hgrown₂.trans (.same rfl rfl rfl rfl ⟨rfl,rfl⟩))

end NodeHeap

/-- On the heap the functions of the trie do what they do to the trie of the words: as
long as malloc answers, the blocks stay a tree with its paths and its marks, and every
call returns the node at the end of the path, or NULL with the call on the trie. -/
theorem trie_on_heap (h : NodeHeap) (ks : List TrieCall) (htr : h.tr = none)
    (hst : h.Stocked (room ks+1)) :
    ∃ root rs h', (h.build ks).val = some (root,rs,h') ∧
      h'.Models root ((trieInit none).calls ks).1 ∧
      List.Forall₂ (NodeHeap.Points h' root) rs ((trieInit none).calls ks).2 := by
  obtain ⟨root,rs,h',log,hgives,hm,hrs,-⟩ := NodeHeap.build_made (n := 0) htr
    (by rw [Nat.zero_add]; exact hst)
  exact ⟨root,rs,h',by rw [hgives],hm,hrs⟩

def bareHeap (n : Nat) : NodeHeap := ⟨none,fun _ => false,fun _ => false,fun _ _ => none,.range n⟩

def callsAb : List TrieCall :=
  [.insert ⟨[97,98],List.cons_ne_nil _ _⟩,.insert ⟨[97,98],List.cons_ne_nil _ _⟩,
    .lookup ⟨[97],List.cons_ne_nil _ _⟩,.scan ⟨[97,98,99],List.cons_ne_nil _ _⟩]

theorem stocked_ab : (bareHeap 5).Stocked (room callsAb+1) :=
  ⟨List.nodup_range,fun _ _ => rfl,by decide⟩

theorem trie_on_heap_ab : ∃ root rs h', ((bareHeap 5).build callsAb).val = some (root,rs,h') ∧
    rs = [h'.nodeAt root [97,98],none,none,h'.nodeAt root [97,98]] := by
  obtain ⟨root,rs,h',hval,-,hrs⟩ := trie_on_heap (bareHeap 5) callsAb rfl stocked_ab
  have hcalls : ((trieInit none).calls callsAb).2 = [some [97,98],none,none,some [97,98]] := by
    decide
  rw [hcalls] at hrs
  obtain ⟨r₁,l₁,hr₁,hl₁,rfl⟩ := List.forall₂_cons_right_iff.mp hrs
  obtain ⟨r₂,l₂,hr₂,hl₂,rfl⟩ := List.forall₂_cons_right_iff.mp hl₁
  obtain ⟨r₃,l₃,hr₃,hl₃,rfl⟩ := List.forall₂_cons_right_iff.mp hl₂
  obtain ⟨r₄,l₄,hr₄,hl₄,rfl⟩ := List.forall₂_cons_right_iff.mp hl₃
  obtain rfl := List.forall₂_nil_right_iff.mp hl₄
  exact ⟨root,_,h',hval,by rw [hr₁.eq,hr₂.eq,hr₃.eq,hr₄.eq]; rfl⟩

namespace NodeHeap
variable {h h' h'' : NodeHeap} {root : Addr} {log : List HeapEvent} {fuel : Nat}

/-- The log of a run that ends by giving back what it got from malloc. -/
structure Balanced (children : Addr → UInt8 → Option Addr) (log : List HeapEvent) : Prop where
  perm : (frees log).Perm (allocs log)
  once : (frees log).Nodup
  upwards : (frees log).Pairwise fun x y => ∀ u, follow children x u ≠ some y
  noRead : NoReadAfterFree log

theorem Made.destroyed {t : Trie} (hmade : Made h h' root log) (hm : h'.Models root t)
    (hst : Stocked h 0) (hfuel : ∀ v, v ∈ t.paths → v.length < fuel) :
    ∃ h'' log', (trieDestroy fuel h' root).Gives h'' log' ∧ Balanced h'.children (log++log') ∧
      (∀ a, h''.live a = h.live a) ∧ h''.tr = some root := by
  have hdepth : ∀ v x, h'.nodeAt root v = some x → v.length < fuel :=
    fun v x hv => hfuel v (hm.mem hv)
  have hgives := trieDestroy_gives (l := []) hm.tree
    (fun v x hv => ⟨hm.live v x hv,List.not_mem_nil⟩) hdepth
  rw [drop_nil,List.nil_append] at hgives
  have hnodup : (allocs log).Nodup := by
    have hsupply := hst.nodup
    rw [hmade.supply] at hsupply
    exact (List.nodup_append.mp hsupply).1
  have hpost := nodup_postorder (d := fuel) mem_indices nodup_indices hm.tree
  have hmem : ∀ a, a ∈ postorder h'.children indices fuel root ↔ a ∈ allocs log := by
    intro a
    rw [mem_postorder mem_indices,← hmade.nodes]
    exact exists_congr fun v => and_iff_right_of_imp (hdepth v a)
  have hnofree : ∀ e, e ∈ log → ∀ x, e ≠ .free x := by
    rintro e he x rfl
    have hnone := List.filterMap_eq_nil_iff.mp hmade.noFree _ he
    cases hnone
  have hallocs : allocs (destroyLog h'.children fuel root) = [] := by
    refine List.filterMap_eq_nil_iff.mpr fun e he => ?_
    obtain ⟨v,x,-,rfl | rfl⟩ := mem_destroyLog he <;> rfl
  have hfrees : frees (log++destroyLog h'.children fuel root) =
      postorder h'.children indices fuel root := by
    rw [frees_append,hmade.noFree,frees_destroyLog,List.nil_append]
  refine ⟨_,_,hgives,⟨?_,hfrees ▸ hpost,?_,?_⟩,fun a => ?_,hmade.tr⟩
  · rw [hfrees,allocs_append,hallocs,List.append_nil,List.perm_ext_iff_of_nodup hpost hnodup]
    exact hmem
  · rw [hfrees]
    exact postorder_upwards mem_indices nodup_indices hm.tree
  · refine List.pairwise_append.mpr ⟨List.pairwise_of_forall_mem_list ?_,
      noReadAfterFree_tree hm.tree,?_⟩
    · exact fun e he e' _ x hx => absurd hx (hnofree e he x)
    · exact fun e he e' _ x hx => absurd hx (hnofree e he x)
  · change (if a ∈ postorder h'.children indices fuel root then false else h'.live a) = h.live a
    have hlive := hmade.live a
    split
    · rename_i hin
      refine (hst.fresh a ?_).symm
      rw [hmade.supply]
      exact List.mem_append_left _ ((hmem a).mp hin)
    · rename_i hno
      rw [Bool.eq_iff_iff,hlive]
      exact or_iff_left fun hin => hno ((hmem a).mpr hin)

end NodeHeap

end SSearcher
