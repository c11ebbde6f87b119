import SSearcher.Machine
import Mathlib.Logic.Function.Basic
set_option autoImplicit false

/-! The rope list of buffer.c on the list_head of util.h, on a heap whose freed blocks
cannot be used. A rope's list_head is its first member, so list_entry and
`&p->lh` keep the address. -/
namespace SSearcher
open Runs Memory Function

abbrev Addr := Nat

/-- What a block in use is: the list_head of a buffer, a `struct rope` or a string. -/
inductive Block where
  | head | rope | str
  deriving DecidableEq, Repr

/-- A block that is not in use keeps what its fields held, but no access may see it. -/
structure Heap where
  block : Addr → Option Block
  next : Addr → Addr
  prev : Addr → Addr
  pstr : Addr → Addr
  tag : Addr → UInt8
  str : Addr → List UInt8

inductive HeapEvent where
  | read : Addr → HeapEvent
  | write : Addr → HeapEvent
  | alloc : Addr → HeapEvent
  | free : Addr → HeapEvent
  | print : List UInt8 → HeapEvent
  deriving DecidableEq, Repr

abbrev Heaped (α : Type) := Run HeapEvent α

def hasList : Option Block → Bool
  | some .head | some .rope => true
  | _ => false

def hasFree : Option Block → Bool
  | some .rope | some .str => true
  | _ => false

/-- Read a field that only the blocks in `ok` have. -/
def Heap.read {β : Type} (h : Heap) (ok : Option Block → Bool) (field : Addr → β) (a : Addr) :
    Heaped β := do
  .emit (.read a)
  if ok (h.block a) then return field a else .stuck

def Heap.write (h : Heap) (ok : Option Block → Bool) (a : Addr) (h' : Heap) : Heaped Heap := do
  .emit (.write a)
  if ok (h.block a) then return h' else .stuck

/-- `a` is the address malloc answers with. -/
def malloc (h : Heap) (b : Block) (a : Addr) : Heaped Heap := do
  .emit (.alloc a)
  if h.block a = none then return { h with block := update h.block a (some b) } else .stuck

def free (h : Heap) (a : Addr) : Heaped Heap := do
  .emit (.free a)
  if hasFree (h.block a) then return { h with block := update h.block a none } else .stuck

def getNext (h : Heap) (a : Addr) : Heaped Addr := h.read hasList h.next a

def getPrev (h : Heap) (a : Addr) : Heaped Addr := h.read hasList h.prev a

def setNext (h : Heap) (a b : Addr) : Heaped Heap :=
  h.write hasList a { h with next := update h.next a b }

def setPrev (h : Heap) (a b : Addr) : Heaped Heap :=
  h.write hasList a { h with prev := update h.prev a b }

def initListHead (h : Heap) (list : Addr) : Heaped Heap := do
  let h ← setNext h list list
  setPrev h list list

def listAddBetween (h : Heap) (newnode prev next : Addr) : Heaped Heap := do
  let h ← setPrev h next newnode
  let h ← setNext h newnode next
  let h ← setPrev h newnode prev
  setNext h prev newnode

def listAdd (h : Heap) (newnode head : Addr) : Heaped Heap := do
  let next ← getNext h head
  listAddBetween h newnode head next

def listAddTail (h : Heap) (newnode head : Addr) : Heaped Heap := do
  let prev ← getPrev h head
  listAddBetween h newnode prev head

def tagDefault : UInt8 := 0

def tagContext : UInt8 := 1

/-- The string strndup makes: at most `n` bytes, up to the first NUL. -/
def strndup (s : Ptr) (n : Nat) : List UInt8 := (slice s 0 n).takeWhile fun c => c ≠ 0

def ropeSetn (h : Heap) (r a : Addr) (str : Ptr) (len : Nat) (tag : UInt8) : Heaped Heap := do
  let h ← malloc h .str a
  let h := { h with str := update h.str a (strndup str len) }
  let h ← h.write (· = some .rope) r { h with pstr := update h.pstr r a }
  h.write (· = some .rope) r { h with tag := update h.tag r tag }

def ropeIsleaf (h : Heap) (r : Addr) : Heaped Bool := do
  let tag ← h.read (· = some .rope) h.tag r
  return tag ≠ tagDefault

def bufInit (h : Heap) (buf : Addr) : Heaped Heap := initListHead h buf

/-- A call of buf_write, with the addresses malloc and strndup answer with in it. -/
structure Write where
  content : Ptr
  len : Nat
  rope : Addr
  str : Addr

/-- The length goes through the uint32_t of rope_setn. -/
def bufWrite (h : Heap) (buf : Addr) (w : Write) : Heaped Heap := do
  let h ← malloc h .rope w.rope
  let h ← ropeSetn h w.rope w.str w.content (u32 w.len) tagContext
  listAddTail h w.rope buf

def bufWrites (h : Heap) (buf : Addr) : List Write → Heaped Heap
  | [] => return h
  | w::ws => do
    let h ← bufWrite h buf w
    bufWrites h buf ws

def bufFill (h : Heap) (buf : Addr) (ws : List Write) : Heaped Heap := do
  let h ← bufInit h buf
  bufWrites h buf ws

def dumpStep (h : Heap) (buf p : Addr) : Heaped (Addr ⊕ Unit) :=
  if p = buf then return .inr ()
  else do
    if ← ropeIsleaf h p then
      let s ← h.read (· = some .rope) h.pstr p
      let bytes ← h.read (· = some .str) h.str s
      .emit (.print (bytes++[newline]))
    let p ← getNext h p
    return .inl p

def bufDump (fuel : Nat) (h : Heap) (buf : Addr) : Heaped Unit := do
  let p ← getNext h buf
  Run.loop (dumpStep h buf) fuel p

structure DestroyLoop where
  heap : Heap
  p : Addr
  prefetch : Addr

def destroyStep (buf : Addr) (s : DestroyLoop) : Heaped (DestroyLoop ⊕ Heap) :=
  if s.p = buf then return .inr s.heap
  else do
    let str ← s.heap.read (· = some .rope) s.heap.pstr s.p
    let h ← free s.heap str
    let h ← free h s.p
    let p := s.prefetch
    let prefetch ← getNext h p
    return .inl ⟨h,p,prefetch⟩

def bufDestroy (fuel : Nat) (h : Heap) (buf : Addr) : Heaped Heap := do
  let p ← getNext h buf
  let prefetch ← getNext h p
  Run.loop (destroyStep buf) fuel ⟨h,p,prefetch⟩

end SSearcher
