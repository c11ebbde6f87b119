import SSearcher.Match
import SSearcher.Buffer
set_option autoImplicit false

/-! The match loop of worker_thread in thread.c, for one mapped file. -/
namespace SSearcher
open Runs

/-- The options a worker reads. `searchPatlen` is an int. -/
structure Options where
  searchPattern : Ptr
  searchPatlen : Nat
  listMatchingFiles : Bool

def bolStep (fb : Ptr) (mid : Nat) : Prog (Nat ⊕ Nat) :=
  if 0 < mid then do
    let c ← load .file fb (mid-1)
    if c = newline then return .inr mid else return .inl (mid-1)
  else return .inr mid

def beginOfLine (fb : Ptr) (mid : Nat) : Prog Nat := Run.loop (bolStep fb) (mid+1) mid

/-- The function-level statics of worker_writebuffer, shared by all workers. -/
structure Statics where
  nll : Nat
  cnt : Nat

/-- `lastlinum` is a parameter: the assignment to it in the first branch is seen
by nobody. -/
def workerWritebuffer (opt : Options) (st : Statics) (b : Buffer) (fb : Ptr)
    (pos linum lastlinum : Nat) : Prog (Statics × Buffer) := do
  let bol ← beginOfLine fb pos
  if linum ≠ lastlinum then do
    .emit (.record pos linum)
    let (_,b) ← writefBuffer b linumFormat linum
    let (nll,b) ← (writelineColorBuffer b (fun i => fb (bol+i)) 1024 (pos-bol)
      opt.searchPatlen).relabel (.rebase .content .file bol)
    return (⟨nll,1⟩,b)
  else do
    .emit (.amend pos linum)
    let (n,b) ← amendlineColorBuffer b st.nll (pos-bol) opt.searchPatlen st.cnt
    let cnt ← incInt st.cnt
    return (⟨(st.nll+n) % 2^64,cnt⟩,b)

structure ScanLoop where
  startpos : Nat
  linum : Nat
  lastlinum : Nat
  statics : Statics
  buffer : Buffer

def scanInit (st : Statics) (b : Buffer) : ScanLoop := ⟨0,1,0,st,b⟩

def scanMatch (k : Kmp) (fb : Ptr) (size : Nat) (s : ScanLoop) : Prog KmpRet :=
  (kmpMatch k (fun i => fb (s.startpos+i)) (subSize size s.startpos) s.linum).relabel
    (.rebase .text .file s.startpos)

def scanWrite (opt : Options) (fb : Ptr) (s : ScanLoop) (r : KmpRet) : Prog ScanLoop := do
  let (st,b) ← workerWritebuffer opt s.statics s.buffer fb (u32 (r.matchpos+s.startpos))
    r.linum s.lastlinum
  return ⟨u32 (s.startpos + u32 (r.matchpos+opt.searchPatlen)),r.linum,s.lastlinum,st,b⟩

def matchStep (opt : Options) (k : Kmp) (fb : Ptr) (size : Nat) (s : ScanLoop) :
    Prog (ScanLoop ⊕ ScanLoop) := do
  let r ← scanMatch k fb size s
  if r.found = true then do
    let s ← scanWrite opt fb s r
    return .inl s
  else
    return .inr { s with linum := r.linum }

def matchLoop (opt : Options) (k : Kmp) (fb : Ptr) (size fuel : Nat) (s : ScanLoop) :
    Prog ScanLoop :=
  Run.loop (matchStep opt k fb size) fuel s

/-- What map_file maps: a file that is not empty. Its size is an off_t. `fb` is zero past
its end, as a mapping is to the end of its last page; an access behind that page is in the
log like any other. -/
structure MappedFile where
  bytes : List UInt8
  pos : 0 < bytes.length
  small : bytes.length < 2^63

def MappedFile.fb (f : MappedFile) : Ptr := ofList f.bytes

def MappedFile.size (f : MappedFile) : Nat := f.bytes.length

end SSearcher
