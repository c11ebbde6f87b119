import Mathlib.Data.Option.Basic
set_option autoImplicit false

/-! The trie of util.c. A node is named by the bytes that lead to it from the
root of the walk that returns it. -/
namespace SSearcher

/-- `struct trie`; `none` is a NULL child. -/
inductive Trie where
  | node : Bool → (UInt8 → Option Trie) → Trie

def Trie.isleaf : Trie → Bool
  | .node l _ => l

def Trie.children : Trie → UInt8 → Option Trie
  | .node _ c => c

def Trie.setLeaf : Trie → Trie
  | .node _ c => .node true c

def Trie.setChild (t : Trie) (idx : UInt8) (n : Trie) : Trie :=
  .node t.isleaf fun i => if i = idx then some n else t.children i

@[simp] theorem Trie.isleaf_setLeaf (t : Trie) : t.setLeaf.isleaf = true := by cases t; rfl

@[simp] theorem Trie.children_setLeaf (t : Trie) : t.setLeaf.children = t.children := by
  cases t; rfl

@[simp] theorem Trie.isleaf_setChild (t : Trie) (idx : UInt8) (n : Trie) :
    (t.setChild idx n).isleaf = t.isleaf := rfl

@[simp] theorem Trie.children_setChild (t : Trie) (idx : UInt8) (n : Trie) (i : UInt8) :
    (t.setChild idx n).children i = if i = idx then some n else t.children i := rfl

theorem Trie.setChild_self {t n : Trie} {idx : UInt8} (h : t.children idx = some n) :
    t.setChild idx n = t := by
  obtain ⟨l,c⟩ := t
  refine congrArg (Trie.node l) (funext fun i => ?_)
  by_cases hi : i = idx
  · rw [if_pos hi,hi]
    exact h.symm
  · rw [if_neg hi]
    rfl

def trieInit : Option Trie → Trie
  | none => .node false fun _ => none
  | some root => root

/-- `target` holds the `size` bytes the walk reads. -/
def trieWalk (create scan : Bool) : Trie → List UInt8 → Trie × Option (List UInt8)
  | node,[] =>
    if create then if node.isleaf then (node,none) else (node.setLeaf,some [])
    else (node,if node.isleaf then some [] else none)
  | node,idx::target =>
    match if create then some (trieInit (node.children idx)) else node.children idx with
    | none => (node,none)
    | some child =>
      let r := if scan && child.isleaf then (child,some []) else trieWalk create scan child target
      (node.setChild idx r.1,r.2.map (idx::·))

/-- The arguments that pass the assertion on `size`. -/
abbrev Target := {w : List UInt8 // w ≠ []}

def trieInsert (root : Trie) (target : Target) : Trie × Option (List UInt8) :=
  trieWalk true false root target.val

def trieLookup (root : Trie) (target : Target) : Trie × Option (List UInt8) :=
  trieWalk false false root target.val

def trieScan (root : Trie) (target : Target) : Trie × Option (List UInt8) :=
  trieWalk false true root target.val

def trieInserts (root : Trie) (ws : List Target) : Trie :=
  ws.foldl (fun t w => (trieInsert t w).1) root

end SSearcher
