import SSearcher.TrieSpec
set_option autoImplicit false

namespace SSearcher
open Words

def Trie.nodeAt : Trie → List UInt8 → Option Trie
  | t,[] => some t
  | t,c::v => (t.children c).bind fun n => n.nodeAt v

def Trie.paths (t : Trie) : Set (List UInt8) := {v | (t.nodeAt v).isSome}

@[simp] theorem Trie.nodeAt_nil (t : Trie) : t.nodeAt [] = some t := rfl

@[simp] theorem Trie.nodeAt_cons (t : Trie) (c : UInt8) (v : List UInt8) :
    t.nodeAt (c::v) = (t.children c).bind fun n => n.nodeAt v := rfl

theorem Trie.mem_paths {t : Trie} {v : List UInt8} : v ∈ t.paths ↔ (t.nodeAt v).isSome := Iff.rfl

@[simp] theorem Trie.nil_mem_paths (t : Trie) : [] ∈ t.paths := rfl

theorem Trie.after_paths {t n : Trie} {c : UInt8} (h : t.children c = some n) :
    after t.paths c = n.paths := by
  ext v
  simp [mem_paths,h]

theorem Trie.after_paths_none {t : Trie} {c : UInt8} (h : t.children c = none) :
    after t.paths c = ∅ := by
  ext v
  simp [mem_paths,h]

theorem Trie.children_eq_none {t : Trie} {c : UInt8} :
    t.children c = none ↔ after t.paths c = ∅ := by
  constructor
  · exact after_paths_none
  · intro h
    cases hc : t.children c with
    | none => rfl
    | some n =>
      rw [after_paths hc] at h
      exact absurd (h ▸ n.nil_mem_paths) (Set.notMem_empty [])

theorem Trie.holds_append {t n : Trie} {v : List UInt8} (h : t.nodeAt v = some n)
    (u : List UInt8) : t.Holds (v++u) ↔ n.Holds u := by
  induction v generalizing t with
  | nil =>
    obtain rfl := Option.some.inj h
    exact Iff.rfl
  | cons c v ih =>
    obtain ⟨m,hm,hn⟩ := Option.bind_eq_some_iff.mp h
    rw [← ih hn]
    constructor
    · rintro ⟨m',hm',hw⟩
      obtain rfl := Option.some.inj (hm.symm.trans hm')
      exact hw
    · intro hw
      exact ⟨m,hm,hw⟩

theorem Trie.holds_nodeAt {t : Trie} {v : List UInt8} :
    t.Holds v ↔ ∃ n, t.nodeAt v = some n ∧ n.isleaf = true := by
  induction v generalizing t with
  | nil => simp [Holds]
  | cons c v ih => simp [Holds,ih,Option.bind_eq_some_iff]; grind

@[elab_as_elim]
theorem Trie.onChildren {motive : Trie → Prop}
    (node : ∀ l c, (∀ i n, c i = some n → motive n) → motive (.node l c)) (t : Trie) :
    motive t :=
  @Trie.rec motive (fun o => ∀ n, o = some n → motive n) node (fun _ h => nomatch h)
    (fun _ hn _ h => Option.some.inj h ▸ hn) t

theorem Trie.eq_of_paths {t s : Trie} (hpaths : t.paths = s.paths) (hwords : t.words = s.words) :
    t = s := by
  induction t using Trie.onChildren generalizing s with
  | node l c ih =>
    obtain ⟨l',c'⟩ := s
    have hleaf : l = l' := by
      have hnil := Set.ext_iff.mp hwords []
      rwa [nil_mem_words,nil_mem_words,isleaf,isleaf,Bool.coe_iff_coe] at hnil
    have hchildren : c = c' := by
      funext i
      change (node l c).children i = (node l' c').children i
      cases h : (node l c).children i with
      | none =>
        have hnone := children_eq_none.mp h
        rw [hpaths] at hnone
        exact (children_eq_none.mpr hnone).symm
      | some n =>
        cases h' : (node l' c').children i with
        | none =>
          have hnone := children_eq_none.mp h'
          rw [← hpaths,← children_eq_none,h] at hnone
          cases hnone
        | some n' =>
          have hpaths' : n.paths = n'.paths := by rw [← after_paths h,hpaths,after_paths h']
          have hwords' : n.words = n'.words := by rw [← after_words h,hwords,after_words h']
          rw [ih i n h hpaths' hwords']
    rw [hleaf,hchildren]

theorem trieWalk_paths (t : Trie) (w v : List UInt8) :
    v ∈ (trieWalk true false t w).1.paths ↔ v ∈ t.paths ∨ v <+: w := by
  induction w generalizing t v with
  | nil =>
    cases v with
    | nil => simp
    | cons c v =>
      cases hl : t.isleaf <;> simp [trieWalk,hl,Trie.mem_paths]
  | cons c w ih =>
    cases v with
    | nil => simp
    | cons d v =>
      simp only [trieWalk,Bool.false_eq_true,if_false,if_true,Bool.false_and]
      by_cases hd : d = c
      · subst hd
        have hset : ∀ n, d::v ∈ (t.setChild d n).paths ↔ v ∈ n.paths := by
          intro n
          rw [← mem_after,Trie.after_paths (n := n) (by simp)]
        rw [hset,ih,List.cons_prefix_cons,← mem_after]
        cases h : t.children d with
        | none =>
          rw [Trie.after_paths_none h]
          cases v <;> simp [trieInit,Trie.mem_paths,Trie.children]
        | some n => simp [trieInit,Trie.after_paths h]
      · simp [Trie.mem_paths,hd,List.cons_prefix_cons]

theorem paths_trieInserts (t : Trie) (ws : List Target) (v : List UInt8) :
    v ∈ (trieInserts t ws).paths ↔ v ∈ t.paths ∨ ∃ w, w ∈ ws ∧ v <+: w.val := by
  induction ws generalizing t with
  | nil => simp [trieInserts]
  | cons w ws ih =>
    have hstep : trieInserts t (w::ws) = trieInserts (trieInsert t w).1 ws := rfl
    rw [hstep,ih,trieInsert,trieWalk_paths]
    simp [or_assoc]

theorem paths_trieInit {v : List UInt8} : v ∈ (trieInit none).paths ↔ v = [] := by
  cases v <;> simp [Trie.mem_paths,trieInit,Trie.children]

theorem exists_inserted {ws : List Target} {v : List UInt8} :
    v ∈ inserted ws ↔ ∃ w, w ∈ ws ∧ w.val = v := List.mem_map

/-- The set of inserted words determines the trie. -/
theorem trieInserts_congr {ws ws' : List Target} (h : ∀ w, w ∈ ws ↔ w ∈ ws') :
    trieInserts (trieInit none) ws = trieInserts (trieInit none) ws' := by
  apply Trie.eq_of_paths
  · ext v
    simp only [paths_trieInserts,h]
  · rw [words_inserts,words_inserts]
    ext v
    simp only [exists_inserted,h]

/-- The nodes of a trie are the root and the non-empty prefixes of the inserted words,
and the marked ones are the inserted words. Nothing else about the insertions shows. -/
theorem trie_canonical (ws : List Target) :
    (∀ v, v ≠ [] → (((trieInserts (trieInit none) ws).nodeAt v).isSome ↔
      ∃ w, w ∈ ws ∧ v <+: w.val)) ∧
    (∀ v, (∃ n, (trieInserts (trieInit none) ws).nodeAt v = some n ∧ n.isleaf = true) ↔
      ∃ w, w ∈ ws ∧ w.val = v) ∧
    (∀ ws', (∀ w, w ∈ ws ↔ w ∈ ws') →
      trieInserts (trieInit none) ws = trieInserts (trieInit none) ws') ∧
    ∀ v n, v ≠ [] → (trieInserts (trieInit none) ws).nodeAt v = some n →
      ∃ u, n.Holds u ∧ ∃ w, w ∈ ws ∧ w.val = v++u := by
  have hpath : ∀ v, v ≠ [] → (((trieInserts (trieInit none) ws).nodeAt v).isSome ↔
      ∃ w, w ∈ ws ∧ v <+: w.val) := by
    intro v hv
    rw [← Trie.mem_paths,paths_trieInserts,paths_trieInit]
    simp [hv]
  have hword : ∀ v, (trieInserts (trieInit none) ws).Holds v ↔ ∃ w, w ∈ ws ∧ w.val = v := by
    intro v
    rw [← exists_inserted,← words_inserts]
    exact Iff.rfl
  refine ⟨hpath,fun v => ?_,fun _ => trieInserts_congr,fun v n hv hn => ?_⟩
  · rw [← Trie.holds_nodeAt,hword]
  · obtain ⟨w,hw,u,hu⟩ := (hpath v hv).mp (by rw [hn]; rfl)
    have hholds := (hword (v++u)).mpr ⟨w,hw,hu.symm⟩
    exact ⟨u,(Trie.holds_append hn u).mp hholds,w,hw,hu.symm⟩

end SSearcher
