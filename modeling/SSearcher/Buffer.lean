import SSearcher.Machine
set_option autoImplicit false

/-! buffer.c: the result buffer of a worker and its writers. -/
namespace SSearcher
open Runs Memory

/-- The thread-local buffer. Bytes of `buf` from `cap` on belong to no block: a function
that reaches them goes on as if they were there, and its log shows the access. Sums of
sizes of live blocks stay below 2^64. -/
structure Buffer where
  buf : Ptr
  cap : Nat
  off : Nat

def defaultSize : Nat := 4096

def growStep (need newcap : Nat) : Prog (Nat ⊕ Nat) :=
  if newcap < need then return .inl (newcap+newcap) else return .inr newcap

/-- realloc keeps the bytes of the old block. -/
def bufferGrow (b : Buffer) (len : Nat) : Prog Buffer := do
  let newcap ← Run.loop (growStep (len+b.off)) (len+b.off+1) b.cap
  let buf ← memset .buf b.buf b.off 0 (newcap-b.off)
  return ⟨buf,newcap,b.off⟩

def checkGrow (b : Buffer) (len : Nat) : Prog Buffer :=
  if b.off+len > b.cap then bufferGrow b len else return b

/-- malloc and realloc both leave a block of `defaultSize` bytes here, and the
memset clears all of it. -/
def initBuffer (b : Buffer) : Prog Buffer := do
  let buf ← memset .buf b.buf 0 0 defaultSize
  return ⟨buf,defaultSize,0⟩

def freshBuffer : Buffer := ⟨fun _ => 0,defaultSize,0⟩

def resetBuffer (b : Buffer) : Prog Buffer := initBuffer b

def destroyBuffer (b : Buffer) : Buffer := { b with cap := 0,off := 0 }

def writeBuffer (b : Buffer) (content : Ptr) (len : Nat) : Prog (Nat × Buffer) := do
  let b ← checkGrow b len
  let buf ← memcpy .buf .content b.buf b.off content 0 len
  return (len,{ b with buf,off := b.off+len })

/-- `format` is what sprintf makes of the argument. -/
def writefBuffer (b : Buffer) (format : Nat → List UInt8) (arg : Nat) :
    Prog (Nat × Buffer) := do
  let str := format arg
  let (_,b) ← (writeBuffer b (ofList str) str.length).relabel (.rebase .content .lit 0)
  return (str.length,b)

/-- `LINUM_COLOR "\n%u:" "\e[0m"` -/
def linumFormat (linum : Nat) : List UInt8 :=
  linumColor ++ [newline] ++ decimal linum ++ [58] ++ resetColor

def lineStep (content : Ptr) (len i : Nat) : Prog (Nat ⊕ Nat) :=
  if i < len then do
    let c ← load .content content i
    if c ≠ newline then do
      let i ← incInt i
      return .inl i
    else return .inr i
  else return .inr i

def writelineBuffer (b : Buffer) (content : Ptr) (len : Nat) : Prog (Nat × Buffer) := do
  let b ← checkGrow b len
  let i ← Run.loop (lineStep content len) (len+1) 0
  let buf ← memcpy .buf .content b.buf b.off content 0 i
  return (i,{ b with buf,off := b.off+i })

def restStep (content : Ptr) (restctnt limit i : Nat) : Prog (Nat ⊕ Nat) :=
  if i < limit then do
    let c ← load .content content (restctnt+i)
    if c ≠ newline then do
      let c ← load .content content (restctnt+i)
      if c ≠ 0 then do
        let i ← incInt i
        return .inl i
      else return .inr i
    else return .inr i
  else return .inr i

def restLoop (content : Ptr) (restctnt limit : Nat) : Prog Nat :=
  Run.loop (restStep content restctnt limit) (limit+1) 0

/-- Pointers into the buffer are offsets of `buf`. -/
def writelineColorBuffer (b : Buffer) (content : Ptr) (len off1 colorlen : Nat) :
    Prog (Nat × Buffer) := do
  let b ← checkGrow b (len+sizeofHili+3)
  let bufferend := b.off
  let hilitoken := bufferend+off1
  let patstart := hilitoken+(sizeofHili-1)
  let hiliend := patstart+colorlen
  let reststr := hiliend+4
  let restctnt := off1+colorlen
  let buf ← memcpy .buf .content b.buf bufferend content 0 off1
  let buf ← memcpy .buf .lit buf hilitoken (ofList hiliColor) 0 (sizeofHili-1)
  let buf ← memcpy .buf .content buf patstart content off1 colorlen
  let buf ← memcpy .buf .lit buf hiliend (ofList resetColor) 0 4
  let i ← restLoop content restctnt (subSize (subSize len off1) colorlen)
  let buf ← memcpy .buf .content buf reststr content restctnt i
  return (reststr-bufferend+i,
    { b with buf,off := b.off + u32 (u32 (reststr-bufferend) + i) })

structure StrcpyLoop where
  buf : Ptr
  i : Nat

def strcpyStep (dst src : Nat) (s : StrcpyLoop) : Prog (StrcpyLoop ⊕ Ptr) := do
  let c ← load .buf s.buf (src+s.i)
  let buf ← store .buf s.buf (dst+s.i) c
  if c ≠ 0 then return .inl ⟨buf,s.i+1⟩ else return .inr buf

/-- A copy that has met no terminator after `cap` bytes has left the block. -/
def strcpy (buf : Ptr) (dst src cap : Nat) : Prog Ptr :=
  Run.loop (strcpyStep dst src) cap ⟨buf,0⟩

def amendlineColorBuffer (b : Buffer) (lastlen off1 colorlen cnt : Nat) :
    Prog (Nat × Buffer) := do
  let b ← checkGrow b (sizeofHili+3)
  let amendstart := (subSize b.off lastlen + off1 + cnt*(sizeofHili+3)) % 2^64
  let amendend := amendstart+colorlen
  let restline := amendend+sizeofHili+3
  let buf ← strcpy b.buf restline amendend b.cap
  let buf ← memcpyWithin .buf buf (amendstart+(sizeofHili-1)) amendstart colorlen
  let buf ← memcpy .buf .lit buf amendstart (ofList hiliColor) 0 (sizeofHili-1)
  let buf ← memcpy .buf .lit buf (amendstart+(sizeofHili-1)+colorlen) (ofList resetColor) 0 4
  return (sizeofHili+3,{ b with buf,off := b.off+sizeofHili+3 })

/-- What `"%s"` prints of the buffer: the bytes before the first NUL of the block.
A block without one is read past its end. -/
def readBuffer (b : Buffer) : Option (List UInt8) :=
  if 0 ∈ slice b.buf 0 b.cap then some ((slice b.buf 0 b.cap).takeWhile (· ≠ 0)) else none

end SSearcher
