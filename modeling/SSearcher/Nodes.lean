import SSearcher.Magic
import SSearcher.Rope
set_option autoImplicit false

/-! The trie of util.c again, as blocks that malloc hands out and free takes back, and
the variable magic.c keeps it in. -/
namespace SSearcher
open Runs Memory Function

/-- The blocks that are a `struct trie`, the variable `tr`, and the addresses malloc will
answer with. A block that is not live keeps its fields, but no access may see it. -/
structure NodeHeap where
  tr : Option Addr
  live : Addr → Bool
  isleaf : Addr → Bool
  children : Addr → UInt8 → Option Addr
  supply : List Addr

/-- Where trie_init finds the pointer to a root. -/
inductive Slot where
  | tr : Slot
  | child : Addr → UInt8 → Slot

namespace NodeHeap

def read {β : Type} (h : NodeHeap) (field : Addr → β) (a : Addr) : Heaped β := do
  .emit (.read a)
  if h.live a then return field a else .stuck

def write (h : NodeHeap) (a : Addr) (h' : NodeHeap) : Heaped NodeHeap := do
  .emit (.write a)
  if h.live a then return h' else .stuck

/-- When malloc answers NULL, memset has no block to write to. -/
def alloc (h : NodeHeap) : Heaped (Addr × NodeHeap) :=
  match h.supply with
  | [] => .stuck
  | a::supply => do
    .emit (.alloc a)
    if h.live a then .stuck
    else return (a,{ h with live := update h.live a true,supply := supply })

def free (h : NodeHeap) (a : Addr) : Heaped NodeHeap := do
  .emit (.free a)
  if h.live a then return { h with live := update h.live a false } else .stuck

def clear (h : NodeHeap) (a : Addr) : Heaped NodeHeap :=
  h.write a { h with
    isleaf := update h.isleaf a false,children := update h.children a fun _ => none }

def readSlot (h : NodeHeap) : Slot → Heaped (Option Addr)
  | .tr => return h.tr
  | .child a idx => h.read (fun a => h.children a idx) a

def writeSlot (h : NodeHeap) (b : Addr) : Slot → Heaped NodeHeap
  | .tr => return { h with tr := some b }
  | .child a idx =>
    h.write a { h with children := update h.children a (update (h.children a) idx (some b)) }

def trieInit (h : NodeHeap) (root : Slot) : Heaped (Addr × NodeHeap) := do
  match ← h.readSlot root with
  | some a => return (a,h)
  | none => do
    let (a,h) ← h.alloc
    let h ← h.writeSlot a root
    let h ← h.clear a
    return (a,h)

/-- The child the walk goes to, made before if `create`. -/
def child (h : NodeHeap) (create : Bool) (node : Addr) (idx : UInt8) :
    Heaped (Option Addr × NodeHeap) := do
  match ← h.read (fun a => h.children a idx) node with
  | some child => return (some child,h)
  | none =>
    if create then do
      let (child,h) ← h.trieInit (.child node idx)
      return (some child,h)
    else return (none,h)

/-- `node->isleaf?node:NULL` -/
def leafNode (h : NodeHeap) (node : Addr) : Heaped (Option Addr × NodeHeap) := do
  let leaf ← h.read h.isleaf node
  return (if leaf then some node else none,h)

/-- `scan && node->isleaf` -/
def stops (h : NodeHeap) (scan : Bool) (node : Addr) : Heaped Bool :=
  if scan then h.read h.isleaf node else return false

def trieWalk (create scan : Bool) :
    NodeHeap → Addr → List UInt8 → Heaped (Option Addr × NodeHeap)
  | h,node,[] =>
    if create then do
      if ← h.read h.isleaf node then return (none,h)
      else do
        let h ← h.write node { h with isleaf := update h.isleaf node true }
        h.leafNode node
    else h.leafNode node
  | h,node,idx::target => do
    let (child,h) ← h.child create node idx
    match child with
    | none => return (none,h)
    | some child => do
      if ← h.stops scan child then return (some child,h)
      else trieWalk create scan h child target

def trieInsert (h : NodeHeap) (root : Addr) (target : Target) : Heaped (Option Addr × NodeHeap) :=
  trieWalk true false h root target.val

def trieLookup (h : NodeHeap) (root : Addr) (target : Target) : Heaped (Option Addr × NodeHeap) :=
  trieWalk false false h root target.val

def trieScan (h : NodeHeap) (root : Addr) (target : Target) : Heaped (Option Addr × NodeHeap) :=
  trieWalk false true h root target.val

def indices : List UInt8 := (List.range 256).map UInt8.ofNat

def destroyChildren (destroy : NodeHeap → Addr → Heaped NodeHeap) (root : Addr) :
    NodeHeap → List UInt8 → Heaped NodeHeap
  | h,[] => return h
  | h,i::is => do
    match ← h.read (fun a => h.children a i) root with
    | none => destroyChildren destroy root h is
    | some child => do
      let h ← destroy h child
      destroyChildren destroy root h is

/-- Calls go `fuel` nodes deep at most. -/
def trieDestroy : Nat → NodeHeap → Addr → Heaped NodeHeap
  | 0,_,_ => .stuck
  | fuel+1,h,root => do
    let h ← destroyChildren (trieDestroy fuel) root h indices
    h.free root

end NodeHeap

end SSearcher
