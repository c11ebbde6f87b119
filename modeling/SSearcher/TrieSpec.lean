import SSearcher.Words
import SSearcher.Trie
set_option autoImplicit false

namespace SSearcher
open Words

def Trie.Holds : Trie → List UInt8 → Prop
  | t,[] => t.isleaf = true
  | t,c::w => ∃ n, t.children c = some n ∧ n.Holds w

/-- The words a trie stands for. -/
def Trie.words (t : Trie) : Set (List UInt8) := {w | t.Holds w}

theorem Trie.nil_mem_words {t : Trie} : [] ∈ t.words ↔ t.isleaf = true := Iff.rfl

theorem Trie.nil_notMem_words {t : Trie} (h : t.isleaf = false) : [] ∉ t.words := by
  simp [nil_mem_words,h]

theorem Trie.after_words {t n : Trie} {c : UInt8} (h : t.children c = some n) :
    after t.words c = n.words := by
  ext w
  constructor
  · rintro ⟨n',hn',hw⟩
    rw [h,Option.some.injEq] at hn'
    exact hn' ▸ hw
  · intro hw
    exact ⟨n,h,hw⟩

theorem Trie.after_words_none {t : Trie} {c : UInt8} (h : t.children c = none) :
    after t.words c = ∅ := by
  ext w
  constructor
  · rintro ⟨n,hn,-⟩
    rw [h] at hn
    exact absurd hn (by simp)
  · exact False.elim

theorem Trie.after_words_init {t : Trie} {c : UInt8} :
    after t.words c = (trieInit (t.children c)).words := by
  cases h : t.children c with
  | none =>
    rw [after_words_none h]
    ext w
    cases w <;> simp [words,Holds,trieInit,isleaf,children]
  | some n => exact after_words h

theorem Trie.words_ext {S : Set (List UInt8)} {t : Trie} (hnil : [] ∈ S ↔ t.isleaf = true)
    (hafter : ∀ c, after S c = after t.words c) : S = t.words := by
  ext w
  cases w with
  | nil => exact hnil
  | cons c w => exact Set.ext_iff.mp (hafter c) w

@[simp] theorem words_trieInit : (trieInit none).words = ∅ := by
  ext w
  cases w <;> simp [Trie.words,Trie.Holds,trieInit,Trie.isleaf,Trie.children]

theorem Trie.words_setLeaf (t : Trie) : t.setLeaf.words = insert [] t.words := by
  refine (words_ext (by simp) fun c => ?_).symm
  ext w
  simp [words,Holds]

theorem Trie.words_setChild {t : Trie} {c : UInt8} {n : Trie} {w : List UInt8}
    (h : n.words = insert w (after t.words c)) :
    (t.setChild c n).words = insert (c::w) t.words := by
  refine (words_ext (by simp [nil_mem_words]) fun d => ?_).symm
  by_cases hd : d = c
  · subst hd
    rw [after_insert_self,← h]
    exact (after_words (by simp)).symm
  · rw [after_insert_ne hd]
    ext v
    simp [words,Holds,hd]

theorem trieWalk_reads (scan : Bool) (t : Trie) (w : List UInt8) :
    (trieWalk false scan t w).1 = t := by
  induction w generalizing t with
  | nil => rfl
  | cons c w ih =>
    cases h : t.children c with
    | none => simp [trieWalk,h]
    | some n =>
      simp only [trieWalk,h,Bool.false_eq_true,if_false]
      split
      · exact Trie.setChild_self h
      · rw [ih]
        exact Trie.setChild_self h

theorem trieWalk_lookup (t : Trie) (w v : List UInt8) :
    (trieWalk false false t w).2 = some v ↔ v = w ∧ w ∈ t.words := by
  induction w generalizing t v with
  | nil =>
    cases h : t.isleaf <;> simp [trieWalk,h,Trie.nil_mem_words,eq_comm]
  | cons c w ih =>
    cases h : t.children c with
    | none =>
      have hno : c::w ∉ t.words := by
        rw [← mem_after,Trie.after_words_none h]
        exact Set.notMem_empty w
      simp [trieWalk,h,hno]
    | some n =>
      have hmem : c::w ∈ t.words ↔ w ∈ n.words := by
        rw [← mem_after,Trie.after_words h]
      simp only [trieWalk,h,Bool.false_eq_true,if_false,Bool.false_and,
        Option.map_eq_some_iff,ih,hmem]
      constructor
      · rintro ⟨v,⟨rfl,hw⟩,rfl⟩
        exact ⟨rfl,hw⟩
      · rintro ⟨rfl,hw⟩
        exact ⟨w,⟨rfl,hw⟩,rfl⟩

theorem trieWalk_insert (t : Trie) (w v : List UInt8) :
    (trieWalk true false t w).2 = some v ↔ v = w ∧ w ∉ t.words := by
  induction w generalizing t v with
  | nil =>
    cases h : t.isleaf <;> simp [trieWalk,h,Trie.nil_mem_words,eq_comm]
  | cons c w ih =>
    have hmem : c::w ∈ t.words ↔ w ∈ (trieInit (t.children c)).words := by
      rw [← mem_after,Trie.after_words_init]
    simp only [trieWalk,Bool.false_eq_true,if_false,if_true,Bool.false_and,
      Option.map_eq_some_iff,ih,hmem]
    constructor
    · rintro ⟨v,⟨rfl,hw⟩,rfl⟩
      exact ⟨rfl,hw⟩
    · rintro ⟨rfl,hw⟩
      exact ⟨w,⟨rfl,hw⟩,rfl⟩

theorem trieWalk_words (t : Trie) (w : List UInt8) :
    (trieWalk true false t w).1.words = insert w t.words := by
  induction w generalizing t with
  | nil =>
    cases h : t.isleaf with
    | false => simp [trieWalk,h,Trie.words_setLeaf]
    | true => simp [trieWalk,h,Set.insert_eq_of_mem (Trie.nil_mem_words.mpr h)]
  | cons c w ih =>
    simp only [trieWalk,Bool.false_eq_true,if_false,if_true,Bool.false_and]
    apply Trie.words_setChild
    rw [ih,Trie.after_words_init]

theorem trieWalk_present {t : Trie} {w : List UInt8} (h : w ∈ t.words) :
    (trieWalk true false t w).1 = t := by
  induction w generalizing t with
  | nil =>
    have hl : t.isleaf = true := h
    simp [trieWalk,hl]
  | cons c w ih =>
    obtain ⟨n,hn,hw⟩ := h
    simp only [trieWalk,hn,trieInit,Bool.false_eq_true,if_false,if_true,Bool.false_and]
    rw [ih hw]
    exact Trie.setChild_self hn

theorem trieWalk_scan {t : Trie} (ht : t.isleaf = false) (w v : List UInt8) :
    (trieWalk false true t w).2 = some v ↔ Shortest t.words w v := by
  induction w generalizing t v with
  | nil => simp [trieWalk,ht,not_shortest_nil (Trie.nil_notMem_words ht)]
  | cons c w ih =>
    rw [shortest_cons (Trie.nil_notMem_words ht)]
    cases h : t.children c with
    | none =>
      rw [Trie.after_words_none h]
      simp only [trieWalk,h,Bool.false_eq_true,if_false,reduceCtorEq,false_iff]
      rintro ⟨u,-,hu⟩
      exact Set.notMem_empty u hu.mem
    | some n =>
      have hsub : ∀ u, (if n.isleaf = true then (n,some [])
          else trieWalk false true n w).2 = some u ↔ Shortest n.words w u := by
        intro u
        cases hl : n.isleaf with
        | true => simp [shortest_of_nil_mem (Trie.nil_mem_words.mpr hl),eq_comm]
        | false => exact ih hl u
      rw [Trie.after_words h]
      simp only [trieWalk,h,Bool.false_eq_true,if_false,Bool.true_and,Option.map_eq_some_iff,hsub]
      exact exists_congr fun u => by rw [and_comm,eq_comm]

def inserted (ws : List Target) : Set (List UInt8) := {w | w ∈ ws.map Subtype.val}

@[simp] theorem mem_inserted {ws : List Target} {w : Target} : w.val ∈ inserted ws ↔ w ∈ ws :=
  List.mem_map_of_injective Subtype.val_injective

theorem words_trieInserts (t : Trie) (ws : List Target) :
    (trieInserts t ws).words = t.words ∪ inserted ws := by
  induction ws generalizing t with
  | nil => simp [trieInserts,inserted]
  | cons w ws ih =>
    have hstep : trieInserts t (w::ws) = trieInserts (trieInsert t w).1 ws := rfl
    rw [hstep,ih,trieInsert,trieWalk_words]
    ext v
    simp [inserted,or_assoc,or_left_comm]

theorem words_inserts (ws : List Target) : (trieInserts (trieInit none) ws).words = inserted ws := by
  rw [words_trieInserts,words_trieInit,Set.empty_union]

theorem isleaf_inserts (ws : List Target) : (trieInserts (trieInit none) ws).isleaf = false := by
  rw [Bool.eq_false_iff,Ne,← Trie.nil_mem_words,words_inserts]
  intro h
  obtain ⟨w,-,hw⟩ := List.mem_map.mp h
  exact w.property hw

theorem trieLookup_some {ws : List Target} {w : Target} {node : List UInt8} :
    (trieLookup (trieInserts (trieInit none) ws) w).2 = some node ↔ node = w.val ∧ w ∈ ws := by
  rw [trieLookup,trieWalk_lookup,words_inserts,mem_inserted]

/-- A trie is the set of the words inserted so far. -/
theorem trie_set (ws : List Target) (w : Target) :
    ((trieLookup (trieInserts (trieInit none) ws) w).2.isSome ↔ w ∈ ws) ∧
    ((trieInsert (trieInserts (trieInit none) ws) w).2.isSome ↔ w ∉ ws) ∧
    ((trieInsert (trieInserts (trieInit none) ws) w).1 = trieInserts (trieInit none) ws ↔
      w ∈ ws) := by
  refine ⟨?_,?_,?_⟩
  · simp [Option.isSome_iff_exists,trieLookup_some]
  · simp [Option.isSome_iff_exists,trieInsert,trieWalk_insert,words_inserts]
  · constructor
    · intro h
      have hwords := congrArg Trie.words h
      rw [trieInsert,trieWalk_words,words_inserts] at hwords
      rw [← mem_inserted,← hwords]
      exact Set.mem_insert _ _
    · intro hw
      exact trieWalk_present (by rwa [words_inserts,mem_inserted])

theorem scan_shortest (ws : List Target) (target : Target) :
    ((trieScan (trieInserts (trieInit none) ws) target).2.isSome ↔
      ∃ w, w ∈ ws ∧ w.val <+: target.val) ∧
    ∀ node, (trieScan (trieInserts (trieInit none) ws) target).2 = some node ↔
      ∃ w : Target, Shortest (inserted ws) target.val w.val ∧
        (trieLookup (trieInserts (trieInit none) ws) w).2 = some node := by
  have hscan : ∀ node, (trieScan (trieInserts (trieInit none) ws) target).2 = some node ↔
      Shortest (inserted ws) target.val node := by
    intro node
    rw [trieScan,trieWalk_scan (isleaf_inserts ws),words_inserts]
  constructor
  · rw [Option.isSome_iff_exists]
    simp only [hscan]
    rw [exists_shortest]
    simp [inserted]
  · intro node
    rw [hscan]
    constructor
    · intro h
      have hmem := h.mem
      obtain ⟨w,hw,rfl⟩ := List.mem_map.mp hmem
      exact ⟨w,h,trieLookup_some.mpr ⟨rfl,hw⟩⟩
    · rintro ⟨w,hw,hnode⟩
      obtain ⟨rfl,-⟩ := trieLookup_some.mp hnode
      exact hw

end SSearcher
