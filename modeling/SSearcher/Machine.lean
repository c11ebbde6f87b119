import Mathlib.Algebra.Group.Nat.Defs
import SSearcher.Runs
import SSearcher.Memory
set_option autoImplicit false

/-! What the C sources take from the machine: fixed-width arithmetic, the
accesses a function makes, and the escape sequences of debug.h. -/
namespace SSearcher
open Runs Memory

/-- A pointer to bytes, as the function from offsets to what is stored there. -/
abbrev Ptr := Nat → UInt8

inductive Region where
  | pat | table | text | content | lit | buf | file
  deriving DecidableEq, Repr

/-- Accesses in program order. One outside its block is in the log like any other and the
run goes on; what it means for a run is said of the log. `record` and `amend` mark the two
branches of worker_writebuffer, with the match position and line number it was called with. -/
inductive Event where
  | load : Region → Nat → Event
  | store : Region → Nat → Event
  | record : Nat → Nat → Event
  | amend : Nat → Nat → Event
  deriving DecidableEq, Repr

abbrev Prog (α : Type) := Run Event α

/-- The block of a callee's region `r` starts `base` into region `s` of the caller. -/
def Event.rebase (r s : Region) (base : Nat) : Event → Event
  | .load r' i => if r' = r then .load s (base+i) else .load r' i
  | .store r' i => if r' = r then .store s (base+i) else .store r' i
  | e => e

def u32 (x : Nat) : Nat := x % 2^32

def subSize (a b : Nat) : Nat := (a+2^64-b) % 2^64

theorem u32_of_lt {x : Nat} (h : x < 2^32) : u32 x = x := Nat.mod_eq_of_lt h

theorem u32_lt (x : Nat) : u32 x < 2^32 := Nat.mod_lt x (by decide)

theorem u32_le (x : Nat) : u32 x ≤ x := Nat.mod_le x _

theorem subSize_of_le {a b : Nat} (h : b ≤ a) (ha : a < 2^64) : subSize a b = a-b := by
  unfold subSize
  omega

/-- Incrementing an int past 2^31-1 is undefined, and the run is stuck. -/
def incInt (i : Nat) : Prog Nat := if i+1 < 2^31 then pure (i+1) else .stuck

def load {α : Type} (r : Region) (m : Nat → α) (i : Nat) : Prog α := do
  .emit (.load r i)
  return m i

def store {α : Type} (r : Region) (m : Nat → α) (i : Nat) (x : α) : Prog (Nat → α) := do
  .emit (.store r i)
  return put m i [x]

def memcpy (rd rs : Region) (dst : Ptr) (d : Nat) (src : Ptr) (s n : Nat) : Prog Ptr := do
  .emits ((List.range n).map fun i => .load rs (s+i))
  .emits ((List.range n).map fun i => .store rd (d+i))
  return put dst d (slice src s n)

/-- `memcpy(buf+d,buf+s,n)` inside one block, undefined where the two parts overlap. -/
def memcpyWithin (r : Region) (buf : Ptr) (d s n : Nat) : Prog Ptr := do
  let buf ← memcpy r r buf d buf s n
  if s+n ≤ d ∨ d+n ≤ s then return buf else .stuck

def memset (r : Region) (dst : Ptr) (d : Nat) (x : UInt8) (n : Nat) : Prog Ptr := do
  .emits ((List.range n).map fun i => .store r (d+i))
  return put dst d (List.replicate n x)

@[simp] theorem val_load {α : Type} (r : Region) (m : Nat → α) (i : Nat) :
    (load r m i).val = some (m i) := rfl

@[simp] theorem log_load {α : Type} (r : Region) (m : Nat → α) (i : Nat) :
    (load r m i).log = [.load r i] := rfl

@[simp] theorem val_store {α : Type} (r : Region) (m : Nat → α) (i : Nat) (x : α) :
    (store r m i x).val = some (put m i [x]) := rfl

@[simp] theorem log_store {α : Type} (r : Region) (m : Nat → α) (i : Nat) (x : α) :
    (store r m i x).log = [.store r i] := rfl

@[simp] theorem val_memcpy (rd rs : Region) (dst : Ptr) (d : Nat) (src : Ptr) (s n : Nat) :
    (memcpy rd rs dst d src s n).val = some (put dst d (slice src s n)) := rfl

@[simp] theorem log_memcpy (rd rs : Region) (dst : Ptr) (d : Nat) (src : Ptr) (s n : Nat) :
    (memcpy rd rs dst d src s n).log =
      ((List.range n).map fun i => .load rs (s+i)) ++
        (List.range n).map fun i => .store rd (d+i) := by
  simp [memcpy]

@[simp] theorem val_memset (r : Region) (dst : Ptr) (d : Nat) (x : UInt8) (n : Nat) :
    (memset r dst d x n).val = some (put dst d (List.replicate n x)) := rfl

@[simp] theorem log_memset (r : Region) (dst : Ptr) (d : Nat) (x : UInt8) (n : Nat) :
    (memset r dst d x n).log = (List.range n).map fun i => .store r (d+i) := by
  simp [memset]

theorem incInt_of_lt {i : Nat} (h : i+1 < 2^31) : incInt i = pure (i+1) := if_pos h

theorem incInt_eq_some {i j : Nat} : (incInt i).val = some j ↔ j = i+1 ∧ i+1 < 2^31 := by
  unfold incInt
  split
  · rename_i h
    rw [and_iff_left h,Run.val_pure,Option.some.injEq,eq_comm]
  · rename_i h
    exact iff_of_false (by simp) fun h' => h h'.2

@[simp] theorem log_incInt (i : Nat) : (incInt i).log = [] := by
  unfold incInt
  split <;> rfl

def newline : UInt8 := 10

/-- `"\e[48;5;220m\e[30;22m"` without its terminator. -/
def hiliColor : List UInt8 :=
  [27,91,52,56,59,53,59,50,50,48,109,27,91,51,48,59,50,50,109]

/-- `"\e[1;35m"` -/
def linumColor : List UInt8 := [27,91,49,59,51,53,109]

/-- `"\e[1;34m"` -/
def fnameColor : List UInt8 := [27,91,49,59,51,52,109]

/-- `"\e[0m"` -/
def resetColor : List UInt8 := [27,91,48,109]

/-- What `%u` prints. -/
def decimal (n : Nat) : List UInt8 := (Nat.toDigits 10 n).map fun c => UInt8.ofNat c.toNat

/-- `sizeof(HILI_COLOR)` counts the terminator. -/
def sizeofHili : Nat := hiliColor.length + 1

@[simp] theorem length_hiliColor : hiliColor.length = 19 := rfl

@[simp] theorem length_resetColor : resetColor.length = 4 := rfl

@[simp] theorem sizeofHili_eq : sizeofHili = 20 := rfl

/-- The pointer to a string or a file that is followed by zero bytes. -/
def ofList (l : List UInt8) : Ptr := fun i => l.getD i 0

end SSearcher
