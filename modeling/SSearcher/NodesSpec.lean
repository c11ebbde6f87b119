import SSearcher.Links
import SSearcher.Nodes
import SSearcher.RopeWalk
import SSearcher.TrieShape
set_option autoImplicit false

namespace SSearcher
open Runs Memory Function Links

def HeapEvent.allocated : HeapEvent → Option Addr
  | .alloc a => some a
  | _ => none

def allocs (log : List HeapEvent) : List Addr := log.filterMap HeapEvent.allocated

theorem allocs_append (l l' : List HeapEvent) : allocs (l++l') = allocs l ++ allocs l' :=
  List.filterMap_append

theorem frees_append (l l' : List HeapEvent) : frees (l++l') = frees l ++ frees l' :=
  List.filterMap_append

def Quiet (log : List HeapEvent) : Prop := allocs log = [] ∧ frees log = []

theorem Quiet.append {l l' : List HeapEvent} (hl : Quiet l) (hl' : Quiet l') : Quiet (l++l') := by
  refine ⟨?_,?_⟩
  · rw [allocs_append,hl.1,hl'.1]
    rfl
  · rw [frees_append,hl.2,hl'.2]
    rfl

namespace NodeHeap
variable {h h' h'' : NodeHeap} {root a b : Addr} {P L P' L' : Set (List UInt8)}
  {u v w : List UInt8} {c : UInt8} {n : Nat} {log log' : List HeapEvent}

theorem gives_read {β : Type} {field : Addr → β} (hlive : h.live a = true) :
    (h.read field a).Gives (field a) [.read a] := by
  simp only [read,hlive,if_true]
  rfl

theorem gives_write (hlive : h.live a = true) : (h.write a h').Gives h' [.write a] := by
  simp only [write,hlive,if_true]
  rfl

theorem gives_free (hlive : h.live a = true) :
    (h.free a).Gives { h with live := update h.live a false } [.free a] := by
  simp only [free,hlive,if_true]
  rfl

def nodeAt (h : NodeHeap) (root : Addr) (v : List UInt8) : Option Addr :=
  follow h.children root v

/-- From `root` the blocks are a tree with the paths `P`, those of `L` marked. -/
structure Shape (h : NodeHeap) (root : Addr) (P L : Set (List UInt8)) : Prop where
  tree : Tree h.children root
  live : ∀ v a, h.nodeAt root v = some a → h.live a = true
  paths : ∀ v, (h.nodeAt root v).isSome ↔ v ∈ P
  leaf : ∀ v a, h.nodeAt root v = some a → (h.isleaf a = true ↔ v ∈ L)
  sub : L ⊆ P

theorem Shape.root_live (hs : Shape h root P L) : h.live root = true := hs.live [] root rfl

theorem Shape.mem (hs : Shape h root P L) (hv : h.nodeAt root v = some a) : v ∈ P :=
  (hs.paths v).mp (by rw [hv]; rfl)

theorem Shape.nodeAt_eq_none (hs : Shape h root P L) (hv : v ∉ P) : h.nodeAt root v = none := by
  rw [← Option.not_isSome_iff_eq_none,hs.paths]
  exact hv

/-- malloc can answer `n` times. -/
structure Stocked (h : NodeHeap) (n : Nat) : Prop where
  nodup : h.supply.Nodup
  fresh : ∀ a, a ∈ h.supply → h.live a = false
  enough : n ≤ h.supply.length

/-- What a run that frees nothing does to the blocks of a tree: it keeps them where they
are and adds those it gets from malloc. -/
structure Grown (h h' : NodeHeap) (root : Addr) (log : List HeapEvent) : Prop where
  supply : h.supply = allocs log ++ h'.supply
  live : ∀ a, h'.live a = true ↔ h.live a = true ∨ a ∈ allocs log
  nodes : ∀ a, (∃ v, h'.nodeAt root v = some a) ↔
    (∃ v, h.nodeAt root v = some a) ∨ a ∈ allocs log
  stays : ∀ v a, h.nodeAt root v = some a → h'.nodeAt root v = some a
  noFree : frees log = []
  tr : h'.tr = h.tr

theorem Grown.same (hsupply : h'.supply = h.supply) (hlive : h'.live = h.live)
    (hchildren : h'.children = h.children) (htr : h'.tr = h.tr) (hlog : Quiet log) :
    Grown h h' root log := by
  have hat : ∀ v, h'.nodeAt root v = h.nodeAt root v := fun v => by
    rw [nodeAt,hchildren]
    rfl
  refine ⟨by rw [hlog.1,hsupply]; rfl,fun a => ?_,fun a => ?_,
    fun v a hv => (hat v).trans hv,hlog.2,htr⟩
  · rw [hlog.1,hlive]
    simp
  · simp only [hat,hlog.1,List.not_mem_nil,or_false]

theorem Grown.trans (hg : Grown h h' root log) (hg' : Grown h' h'' root log') :
    Grown h h'' root (log++log') where
  supply := by rw [hg.supply,hg'.supply,allocs_append,List.append_assoc]
  live := fun a => by rw [hg'.live,hg.live,allocs_append,List.mem_append,or_assoc]
  nodes := fun a => by rw [hg'.nodes,hg.nodes,allocs_append,List.mem_append,or_assoc]
  stays := fun v a h => hg'.stays v a (hg.stays v a h)
  noFree := by rw [frees_append,hg.noFree,hg'.noFree]; rfl
  tr := hg'.tr.trans hg.tr

theorem Stocked.grown (hst : Stocked h (n+(allocs log).length)) (hg : Grown h h' root log) :
    Stocked h' n := by
  have hnodup := hst.nodup
  have henough := hst.enough
  rw [hg.supply] at hnodup
  rw [hg.supply,List.length_append] at henough
  refine ⟨(List.nodup_append.mp hnodup).2.1,fun a ha => ?_,by omega⟩
  have hno : a ∉ allocs log := fun hin => (List.nodup_append.mp hnodup).2.2 a hin a ha rfl
  have hfresh := hst.fresh a (by rw [hg.supply]; exact List.mem_append_right _ ha)
  rw [Bool.eq_false_iff,Ne,hg.live]
  rintro (h | h)
  · rw [hfresh] at h
    cases h
  · exact hno h

theorem gives_alloc {supply : List Addr} (hsupply : h.supply = b::supply)
    (hfresh : h.live b = false) :
    h.alloc.Gives (b,{ h with live := update h.live b true,supply := supply }) [.alloc b] := by
  rw [alloc,hsupply]
  simp only [hfresh]
  rfl

def grow (h : NodeHeap) (a : Addr) (c : UInt8) (b : Addr) (supply : List Addr) : NodeHeap where
  tr := h.tr
  live := update h.live b true
  isleaf := update h.isleaf b false
  children := hang h.children a c b
  supply := supply

theorem gives_trieInit_child {supply : List Addr} (hsupply : h.supply = b::supply)
    (hfresh : h.live b = false) (ha : h.live a = true) (hc : h.children a c = none) :
    (h.trieInit (.child a c)).Gives (b,h.grow a c b supply)
      [.read a,.alloc b,.write a,.write b] := by
  have hne : a ≠ b := fun he => by
    rw [he,hfresh] at ha
    cases ha
  have hslot : (h.readSlot (.child a c)).Gives (h.children a c) [.read a] :=
    @gives_read h a _ (fun x => h.children x c) ha
  rw [hc] at hslot
  refine hslot.bind ((gives_alloc hsupply hfresh).bind
    ((gives_write ?_).bind ((gives_write ?_).bind (.pure _))))
  · exact (update_of_ne hne ..).trans ha
  · exact update_self ..

theorem Stocked.other (hst : Stocked h n) (hs : Shape h root P L) (hb : b ∈ h.supply)
    (v : List UInt8) : h.nodeAt root v ≠ some b := by
  intro hv
  have hlive := hs.live v b hv
  rw [hst.fresh b hb] at hlive
  cases hlive

theorem Shape.child_eq_none (hs : Shape h root P L) (hu : h.nodeAt root u = some a)
    (hc : u++[c] ∉ P) : h.children a c = none := by
  rw [← follow_snoc hu]
  exact hs.nodeAt_eq_none hc

theorem nodeAt_grow (supply : List Addr) (hs : Shape h root P L) (hu : h.nodeAt root u = some a)
    (hc : u++[c] ∉ P) (hb : ∀ v, h.nodeAt root v ≠ some b) (v : List UInt8) :
    (h.grow a c b supply).nodeAt root v = if v = u++[c] then some b else h.nodeAt root v :=
  follow_hang hs.tree hu (hs.child_eq_none hu hc) hb

theorem grown_grow {supply : List Addr} (hs : Shape h root P L) (hu : h.nodeAt root u = some a)
    (hc : u++[c] ∉ P) (hsupply : h.supply = b::supply) (hb : ∀ v, h.nodeAt root v ≠ some b) :
    Grown h (h.grow a c b supply) root [.read a,.alloc b,.write a,.write b] := by
  have hat := nodeAt_grow supply hs hu hc hb
  have hstays : ∀ v x, h.nodeAt root v = some x →
      (h.grow a c b supply).nodeAt root v = some x := by
    intro v x hv
    have hne : v ≠ u++[c] := fun he => hc (he ▸ hs.mem hv)
    rw [hat,if_neg hne]
    exact hv
  refine ⟨hsupply,fun x => ?_,fun x => ?_,hstays,rfl,rfl⟩
  · change update h.live b true x = true ↔ _ ∨ x ∈ [b]
    rw [update_apply,List.mem_singleton]
    split <;> simp [*]
  · change _ ↔ _ ∨ x ∈ [b]
    rw [List.mem_singleton]
    constructor
    · rintro ⟨v,hv⟩
      rw [hat] at hv
      split at hv
      · exact .inr (Option.some.inj hv).symm
      · exact .inl ⟨v,hv⟩
    · rintro (⟨v,hv⟩ | rfl)
      · exact ⟨v,hstays v x hv⟩
      · exact ⟨u++[c],by rw [hat,if_pos rfl]⟩

theorem Shape.grow {supply : List Addr} (hs : Shape h root P L) (hu : h.nodeAt root u = some a)
    (hc : u++[c] ∉ P) (hsupply : h.supply = b::supply) (hb : ∀ v, h.nodeAt root v ≠ some b) :
    Shape (h.grow a c b supply) root (insert (u++[c]) P) L := by
  have hat := nodeAt_grow supply hs hu hc hb
  have hgrown := grown_grow hs hu hc hsupply hb
  refine ⟨hs.tree.hang hu (hs.child_eq_none hu hc) hb,fun v x hv => ?_,fun v => ?_,
    fun v x hv => ?_,hs.sub.trans (Set.subset_insert _ _)⟩
  · rw [hgrown.live]
    rcases (hgrown.nodes x).mp ⟨v,hv⟩ with ⟨w,hw⟩ | hin
    · exact .inl (hs.live w x hw)
    · exact .inr hin
  · rw [hat,Set.mem_insert_iff]
    split
    · rename_i he
      exact iff_of_true rfl (.inl he)
    · rename_i hne
      rw [hs.paths,or_iff_right hne]
  · change update h.isleaf b false x = true ↔ _
    rw [hat] at hv
    split at hv
    · rename_i he
      obtain rfl := Option.some.inj hv
      rw [update_self]
      exact iff_of_false Bool.false_ne_true fun hin => hc (he ▸ hs.sub hin)
    · have hne : x ≠ b := fun he => hb v (he ▸ hv)
      rw [update_of_ne hne,hs.leaf v x hv]

theorem trieInit_child (hs : Shape h root P L) (hu : h.nodeAt root u = some a)
    (hc : u++[c] ∉ P) (hst : Stocked h (n+1)) : ∃ b h' log,
    (h.trieInit (.child a c)).Gives (b,h') log ∧ Shape h' root (insert (u++[c]) P) L ∧
    h'.nodeAt root (u++[c]) = some b ∧ Stocked h' n ∧ Grown h h' root log := by
  cases hsupply : h.supply with
  | nil =>
    have henough := hst.enough
    rw [hsupply] at henough
    cases henough
  | cons b supply =>
    have hmem : b ∈ h.supply := by rw [hsupply]; exact List.mem_cons_self
    have hb := hst.other hs hmem
    have hgrown := grown_grow hs hu hc hsupply hb
    exact ⟨b,_,_,gives_trieInit_child hsupply (hst.fresh b hmem) (hs.live u a hu)
      (hs.child_eq_none hu hc),hs.grow hu hc hsupply hb,
      by rw [nodeAt_grow _ hs hu hc hb,if_pos rfl],hst.grown hgrown,hgrown⟩

theorem Shape.mark (hs : Shape h root P L) (hu : h.nodeAt root u = some a) :
    Shape { h with isleaf := update h.isleaf a true } root P (insert u L) := by
  refine ⟨hs.tree,hs.live,hs.paths,fun v x hv => ?_,Set.insert_subset (hs.mem hu) hs.sub⟩
  change update h.isleaf a true x = true ↔ _
  rw [update_apply,Set.mem_insert_iff]
  split
  · rename_i he
    exact iff_of_true rfl (.inl (hs.tree v u a (he ▸ hv) hu))
  · rename_i hne
    rw [hs.leaf v x hv]
    refine (or_iff_right fun he => hne ?_).symm
    rw [he] at hv
    exact Option.some.inj (hv.symm.trans hu)

/-- What lies on the way from `u` along `w`. -/
def way (u w : List UInt8) : Set (List UInt8) := {v | ∃ x, x <+: w ∧ v = u++x}

theorem union_way_nil (hu : u ∈ P) : P ∪ way u [] = P := by
  refine Set.union_eq_left.mpr ?_
  rintro v ⟨x,hx,rfl⟩
  rw [List.prefix_nil.mp hx,List.append_nil]
  exact hu

theorem union_way_cons (hu : u ∈ P) :
    P ∪ way u (c::w) = insert (u++[c]) P ∪ way (u++[c]) w := by
  ext v
  simp only [Set.mem_union,Set.mem_insert_iff,way,Set.mem_ofPred_eq]
  constructor
  · rintro (hv | ⟨x,hx,rfl⟩)
    · exact .inl (.inr hv)
    · rcases List.prefix_cons_iff.mp hx with rfl | ⟨y,rfl,hy⟩
      · exact .inl (.inr (by rw [List.append_nil]; exact hu))
      · exact .inr ⟨y,hy,by rw [List.append_assoc]; rfl⟩
  · rintro ((rfl | hv) | ⟨x,hx,rfl⟩)
    · exact .inr ⟨[c],by simp,rfl⟩
    · exact .inl hv
    · exact .inr ⟨c::x,List.cons_prefix_cons.mpr ⟨rfl,hx⟩,by rw [List.append_assoc]; rfl⟩

theorem gives_child {create : Bool} (ha : h.live a = true) (hc : h.children a c = some b) :
    (h.child create a c).Gives (some b,h) [.read a] := by
  have hread : (h.read (fun x => h.children x c) a).Gives (h.children a c) [.read a] :=
    gives_read ha
  rw [hc] at hread
  exact hread.bind (.pure _)

theorem gives_child_none (ha : h.live a = true) (hc : h.children a c = none) :
    (h.child false a c).Gives (none,h) [.read a] := by
  have hread : (h.read (fun x => h.children x c) a).Gives (h.children a c) [.read a] :=
    gives_read ha
  rw [hc] at hread
  exact hread.bind (.pure _)

/-- What a pointer and a path of the trie have to do with each other. -/
structure Points (h : NodeHeap) (root : Addr) (r : Option Addr) (f : Option (List UInt8)) :
    Prop where
  eq : r = f.bind (h.nodeAt root)
  some : r.isSome = f.isSome

theorem Points.grown {r : Option Addr} {f : Option (List UInt8)} (hp : Points h root r f)
    (hg : Grown h h' root log) : Points h' root r f := by
  refine ⟨?_,hp.some⟩
  have heq := hp.eq
  have hsome := hp.some
  cases f with
  | none => exact heq
  | some v =>
    rw [Option.bind_some] at heq ⊢
    obtain ⟨x,hx⟩ := Option.isSome_iff_exists.mp hsome
    rw [hx,hg.stays v x (heq.symm.trans hx)]

theorem trieWalk_create (hs : Shape h root P L) (hu : h.nodeAt root u = some a)
    (hst : Stocked h (n+w.length)) : ∃ r h' log, (trieWalk true false h a w).Gives (r,h') log ∧
    Shape h' root (P ∪ way u w) (insert (u++w) L) ∧ Stocked h' n ∧ Grown h h' root log ∧
    (u++w ∈ L → r = none) ∧ (u++w ∉ L → r = h'.nodeAt root (u++w) ∧ r.isSome = true) := by
  induction w generalizing h u a P with
  | nil =>
    have ha := hs.live u a hu
    rw [List.append_nil,union_way_nil (hs.mem hu)]
    cases hl : h.isleaf a with
    | true =>
      have hin : u ∈ L := (hs.leaf u a hu).mp hl
      have hread : (h.read h.isleaf a).Gives true [.read a] := hl ▸ gives_read ha
      rw [Set.insert_eq_of_mem hin]
      exact ⟨none,h,_,hread.bind (.pure _),hs,hst,.same rfl rfl rfl rfl ⟨rfl,rfl⟩,fun _ => rfl,
        fun hno => absurd hin hno⟩
    | false =>
      have hin : u ∉ L := fun h => by
        rw [(hs.leaf u a hu).mpr h] at hl
        cases hl
      have hread : (h.read h.isleaf a).Gives false [.read a] := hl ▸ gives_read ha
      have hmark := hs.mark hu
      have hleaf : (leafNode { h with isleaf := update h.isleaf a true } a).Gives
          (some a,{ h with isleaf := update h.isleaf a true }) [.read a] := by
        have hread' := @gives_read { h with isleaf := update h.isleaf a true } a _
          (update h.isleaf a true) ha
        rw [update_self] at hread'
        exact hread'.bind (.pure _)
      exact ⟨some a,_,_,hread.bind ((gives_write ha).bind hleaf),hmark,⟨hst.nodup,hst.fresh,hst.enough⟩,
        .same rfl rfl rfl rfl ⟨rfl,rfl⟩,fun h => absurd h hin,fun _ => ⟨hu.symm,rfl⟩⟩
  | cons c w ih =>
    have ha := hs.live u a hu
    have hassoc : u++c::w = u++[c]++w := by rw [List.append_assoc]; rfl
    rw [union_way_cons (hs.mem hu),hassoc]
    by_cases hc : u++[c] ∈ P
    · obtain ⟨b,hb⟩ := Option.isSome_iff_exists.mp ((hs.paths _).mpr hc)
      obtain ⟨r,h',log,hgives,hs',hst',hgrown,hr⟩ := ih hs hb
        ⟨hst.nodup,hst.fresh,Nat.le_trans (Nat.le_succ _) hst.enough⟩
      rw [Set.insert_eq_of_mem hc]
      have hchild : h.children a c = some b := (follow_snoc hu c).symm.trans hb
      refine ⟨r,h',_,(gives_child ha hchild).bind ((Run.Gives.pure false).bind hgives),hs',hst',?_,hr⟩
      exact (Grown.same rfl rfl rfl rfl ⟨rfl,rfl⟩).trans hgrown
    · obtain ⟨b,h₁,log₁,hinit,hs₁,hb,hst₁,hgrown₁⟩ := trieInit_child hs hu hc hst
      obtain ⟨r,h',log,hgives,hs',hst',hgrown,hr⟩ := ih hs₁ hb hst₁
      have hnone : h.children a c = none := (follow_snoc hu c).symm.trans (hs.nodeAt_eq_none hc)
      have hread : (h.read (fun x => h.children x c) a).Gives (h.children a c) [.read a] :=
        gives_read ha
      rw [hnone] at hread
      have hchild : (h.child true a c).Gives (some b,h₁) ([.read a]++(log₁++[])) :=
        hread.bind (hinit.bind (.pure _))
      refine ⟨r,h',_,hchild.bind ((Run.Gives.pure false).bind hgives),hs',hst',?_,hr⟩
      exact ((Grown.same rfl rfl rfl rfl ⟨rfl,rfl⟩).trans
        (hgrown₁.trans (.same rfl rfl rfl rfl ⟨rfl,rfl⟩))).trans hgrown

theorem Shape.below {t n : Trie} (hs : Shape h root t.paths t.words)
    (hb : h.children root c = some b) (hn : t.children c = some n) :
    Shape h b n.paths n.words := by
  have hat : ∀ v, h.nodeAt root (c::v) = h.nodeAt b v := fun v => by
    rw [nodeAt,follow_cons,hb]
    rfl
  rw [← Trie.after_paths hn,← Trie.after_words hn]
  refine ⟨hs.tree.below (u := [c]) (hat []),fun v a hv => hs.live (c::v) a ((hat v).trans hv),
    fun v => ?_,fun v a hv => hs.leaf (c::v) a ((hat v).trans hv),fun v hv => hs.sub hv⟩
  rw [← hat]
  exact hs.paths (c::v)

theorem Shape.child_iff {t : Trie} (hs : Shape h root t.paths t.words) (c : UInt8) :
    (h.children root c).isSome = (t.children c).isSome := by
  have hpath : [c] ∈ t.paths ↔ (t.children c).isSome := by
    rw [Trie.mem_paths,Trie.nodeAt_cons]
    cases t.children c <;> simp
  have hnode : h.nodeAt root [c] = h.children root c := follow_snoc (u := []) rfl c
  rw [Bool.eq_iff_iff,← hpath,← hs.paths,hnode]

theorem Shape.leaf_root {t : Trie} (hs : Shape h root t.paths t.words) :
    h.isleaf root = t.isleaf := by
  rw [Bool.eq_iff_iff,hs.leaf [] root rfl,Trie.nil_mem_words]

theorem trieWalk_find (scan : Bool) {t : Trie} (hs : Shape h root t.paths t.words)
    (w : List UInt8) : ∃ r log, (trieWalk false scan h root w).Gives (r,h) log ∧ Quiet log ∧
      Points h root r (SSearcher.trieWalk false scan t w).2 := by
  induction w generalizing root t with
  | nil =>
    have hread : (h.read h.isleaf root).Gives (h.isleaf root) [.read root] :=
      gives_read hs.root_live
    rw [hs.leaf_root] at hread
    refine ⟨_,_,hread.bind (.pure _),⟨rfl,rfl⟩,?_⟩
    cases hl : t.isleaf with
    | true => exact ⟨by simp [SSearcher.trieWalk,hl,nodeAt],by simp [SSearcher.trieWalk,hl]⟩
    | false => exact ⟨by simp [SSearcher.trieWalk,hl],by simp [SSearcher.trieWalk,hl]⟩
  | cons c w ih =>
    have hchild := hs.child_iff c
    cases hn : t.children c with
    | none =>
      rw [hn,Option.isSome_none,Option.isSome_eq_false_iff,Option.isNone_iff_eq_none] at hchild
      refine ⟨none,_,(gives_child_none hs.root_live hchild).bind (.pure _),⟨rfl,rfl⟩,?_⟩
      exact ⟨by simp [SSearcher.trieWalk,hn],by simp [SSearcher.trieWalk,hn]⟩
    | some n =>
      rw [hn,Option.isSome_some] at hchild
      obtain ⟨b,hb⟩ := Option.isSome_iff_exists.mp hchild
      have hat : ∀ v, h.nodeAt root (c::v) = h.nodeAt b v := fun v => by
        rw [nodeAt,follow_cons,hb]
        rfl
      have hsb := hs.below hb hn
      obtain ⟨r,log,hgives,hquiet,hr⟩ := ih hsb
      have hstops : (h.stops scan b).Gives (scan && n.isleaf) (if scan then [.read b] else []) := by
        cases scan with
        | false => exact .pure _
        | true =>
          have hread : (h.read h.isleaf b).Gives (h.isleaf b) [.read b] := gives_read hsb.root_live
          rw [hsb.leaf_root] at hread
          exact hread
      have hreads : Quiet (if scan then [HeapEvent.read b] else []) := by
        cases scan <;> exact ⟨rfl,rfl⟩
      have hfirst : Quiet [HeapEvent.read root] := ⟨rfl,rfl⟩
      have hcons : (SSearcher.trieWalk false scan t (c::w)).2 =
          (if scan && n.isleaf then some [] else (SSearcher.trieWalk false scan n w).2).map
            (c::·) := by
        simp only [SSearcher.trieWalk,hn,Bool.false_eq_true,if_false]
        split <;> rfl
      rw [hcons]
      cases hstop : scan && n.isleaf with
      | true =>
        rw [hstop] at hstops
        exact ⟨some b,_,(gives_child hs.root_live hb).bind (hstops.bind (.pure _)),
          hfirst.append (hreads.append ⟨rfl,rfl⟩),(hat []).symm,rfl⟩
      | false =>
        rw [hstop] at hstops
        refine ⟨r,_,(gives_child hs.root_live hb).bind (hstops.bind hgives),
          hfirst.append (hreads.append hquiet),?_,?_⟩
        · rw [hr.eq,if_neg Bool.false_ne_true,Option.bind_map]
          exact congrArg _ (funext fun v => (hat v).symm)
        · rw [hr.some,if_neg Bool.false_ne_true,Option.isSome_map]

end NodeHeap

end SSearcher
