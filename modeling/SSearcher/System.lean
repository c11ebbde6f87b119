import Mathlib.Logic.Function.Basic
import SSearcher.Magic
import SSearcher.Worker
set_option autoImplicit false

/-! thread.c: the dispatcher walks the directory tree and hands open files to the
workers through a pipe. A step is one call of a thread, and any thread may be next. -/
namespace SSearcher
open Function

/-- What fts_read returns, with the file behind it. Its size is an off_t. -/
structure Entry where
  ftsName : List UInt8
  ftsPath : List UInt8
  isReg : Bool
  opens : Bool
  bytes : List UInt8
  small : bytes.length < 2^63

def skipNames : List (List UInt8) := [[46,103,105,116],[46,115,118,110],[46,104,103]]

/-- The entries that go straight to `next_entry`. -/
def Entry.skipped (e : Entry) : Bool := skipNames.contains e.ftsName || !e.isReg

/-- What map_file maps; NULL for an empty file. Descriptor 0 is never the file's, as its
assertion says: the standard streams are open. -/
def mapFile (e : Entry) : Option MappedFile :=
  if h : 0 < e.bytes.length then some ⟨e.bytes,h,e.small⟩ else none

/-- A record of the pipe. `entry` is not in the source: it tells the entries of the
tree apart whose descriptors had the same number. -/
structure FileInfo where
  fd : Nat
  filename : List UInt8
  entry : Nat

/-- Where the dispatcher stands; `next i` is before the call of fts_read for entry `i`. -/
inductive Dispatcher where
  | next : Nat → Dispatcher
  | opening : Nat → Dispatcher
  | scanning : Nat → Nat → Dispatcher
  | closing : Nat → Nat → Dispatcher
  | sending : FileInfo → Dispatcher
  | finishing : Dispatcher
  | ended : Dispatcher

inductive Pc where
  | starting : Pc
  | locking : Pc
  | reading : Pc
  | unlocking : Option FileInfo → Pc
  | mapping : FileInfo → Pc
  | dropping : FileInfo → Pc
  | searching : FileInfo → MappedFile → Nat → Nat → Nat → Pc
  | printing : FileInfo → Pc
  | resetting : FileInfo → Pc
  | unmapping : FileInfo → Pc
  | leaving : Pc
  | ended : Pc

structure Worker where
  pc : Pc
  buffer : Buffer
  kmp : Kmp

/-- What the workers share while they search: the statics of worker_writebuffer and
stdout. `printed` lists the entries printed so far. -/
structure Shared where
  statics : Statics
  output : List UInt8
  printed : List Nat

/-- `FNAME_COLOR "%s" "\e[0m\n"` -/
def nameLine (filename : List UInt8) : List UInt8 :=
  fnameColor ++ filename ++ resetColor ++ [newline]

/-- The section under outmtx. A buffer without a terminator is read past its block. -/
def printResult (opt : Options) (fi : FileInfo) (b : Buffer) : Option (List UInt8) :=
  if opt.listMatchingFiles then some (nameLine fi.filename)
  else (readBuffer b).map fun s => nameLine fi.filename ++ s ++ [newline]

/-- The steps of a worker on its own file. `file` tells what a descriptor is open on. -/
inductive Work (opt : Options) (file : Nat → Option Entry) :
    Worker × Shared → Worker × Shared → Prop where
  | start {w : Worker} {g : Shared} {b : Buffer} {k : Kmp} : w.pc = .starting →
      (initBuffer w.buffer).val = some b →
      (kmpPrepare w.kmp opt.searchPattern opt.searchPatlen).val = some k →
      Work opt file (w,g) (⟨.locking,b,k⟩,g)
  | mapEmpty {w : Worker} {g : Shared} {fi : FileInfo} {e : Entry} : w.pc = .mapping fi →
      file fi.fd = some e → mapFile e = none → Work opt file (w,g) ({ w with pc := .dropping fi },g)
  | map {w : Worker} {g : Shared} {fi : FileInfo} {e : Entry} {f : MappedFile} :
      w.pc = .mapping fi → file fi.fd = some e → mapFile e = some f →
      Work opt file (w,g) ({ w with pc := .searching fi f 0 1 0 },g)
  | found {w : Worker} {g : Shared} {fi : FileInfo} {f : MappedFile}
      {startpos linum lastlinum : Nat} {s : ScanLoop} :
      w.pc = .searching fi f startpos linum lastlinum →
      (matchStep opt w.kmp f.fb f.size ⟨startpos,linum,lastlinum,g.statics,w.buffer⟩).val =
        some (.inl s) →
      Work opt file (w,g) (⟨.searching fi f s.startpos s.linum s.lastlinum,s.buffer,w.kmp⟩,
        { g with statics := s.statics })
  | notFound {w : Worker} {g : Shared} {fi : FileInfo} {f : MappedFile}
      {startpos linum lastlinum : Nat} {s : ScanLoop} :
      w.pc = .searching fi f startpos linum lastlinum →
      (matchStep opt w.kmp f.fb f.size ⟨startpos,linum,lastlinum,g.statics,w.buffer⟩).val =
        some (.inr s) →
      Work opt file (w,g) ({ w with pc := .printing fi },g)
  | print {w : Worker} {g : Shared} {fi : FileInfo} {s : List UInt8} : w.pc = .printing fi →
      w.buffer.off ≠ 0 → printResult opt fi w.buffer = some s →
      Work opt file (w,g) ({ w with pc := .resetting fi },
        { g with output := g.output ++ s,printed := g.printed ++ [fi.entry] })
  | nothing {w : Worker} {g : Shared} {fi : FileInfo} : w.pc = .printing fi →
      w.buffer.off = 0 → Work opt file (w,g) ({ w with pc := .resetting fi },g)
  | reset {w : Worker} {g : Shared} {fi : FileInfo} {b : Buffer} : w.pc = .resetting fi →
      (resetBuffer w.buffer).val = some b →
      Work opt file (w,g) ({ w with pc := .unmapping fi,buffer := b },g)
  | leave {w : Worker} {g : Shared} : w.pc = .leaving →
      Work opt file (w,g) (⟨.ended,destroyBuffer w.buffer,kmpFinish w.kmp⟩,g)

/-- The whole process. `fds` tells which entry a descriptor of the dispatcher is open
on; `opened`, `sent`, `closed` and `finished` list what has happened to the entries. -/
structure Sys (W : Type) where
  dispatcher : Dispatcher
  pipe : List FileInfo
  writeOpen : Bool
  readmtx : Option W
  worker : W → Worker
  shared : Shared
  fds : Nat → Option Nat
  opened : List Nat
  sent : List Nat
  closed : List Nat
  finished : W → List Nat

variable {W : Type} [DecidableEq W]

def Sys.setPc (g : Sys W) (w : W) (pc : Pc) : Sys W :=
  { g with worker := update g.worker w { g.worker w with pc } }

def Sys.close (g : Sys W) (fd : Nat) : Sys W :=
  { g with fds := update g.fds fd none,closed := (g.fds fd).toList ++ g.closed }

def Sys.finish (g : Sys W) (w : W) (fi : FileInfo) : Sys W :=
  { g with finished := update g.finished w (fi.entry :: g.finished w) }

def Sys.file (g : Sys W) (entries : List Entry) (fd : Nat) : Option Entry :=
  (g.fds fd).bind fun i => entries[i]?

/-- `tr` is what magic_init leaves, `entries` what fts_read returns. A full pipe or an
empty one with an open write end blocks, as the mutex does when it is taken. -/
inductive Step (opt : Options) (tr : Trie) (entries : List Entry) : Sys W → Sys W → Prop where
  | endOfTree {g : Sys W} {i : Nat} : g.dispatcher = .next i → entries[i]? = none →
      Step opt tr entries g { g with dispatcher := .finishing }
  | skip {g : Sys W} {i : Nat} {e : Entry} : g.dispatcher = .next i → entries[i]? = some e →
      e.skipped = true → Step opt tr entries g { g with dispatcher := .next (i+1) }
  | visit {g : Sys W} {i : Nat} {e : Entry} : g.dispatcher = .next i → entries[i]? = some e →
      e.skipped = false → Step opt tr entries g { g with dispatcher := .opening i }
  | openFails {g : Sys W} {i : Nat} {e : Entry} : g.dispatcher = .opening i →
      entries[i]? = some e → e.opens = false →
      Step opt tr entries g { g with dispatcher := .next (i+1) }
  | opens {g : Sys W} {i fd : Nat} {e : Entry} : g.dispatcher = .opening i →
      entries[i]? = some e → e.opens = true → g.fds fd = none →
      Step opt tr entries g { g with
        dispatcher := .scanning i fd,fds := update g.fds fd (some i),opened := i :: g.opened }
  | binary {g : Sys W} {i fd : Nat} {e : Entry} (magicBuf : Ptr) :
      g.dispatcher = .scanning i fd → g.file entries fd = some e →
      (magicScan tr e.bytes magicBuf).2 = true →
      Step opt tr entries g { g with dispatcher := .closing i fd }
  | text {g : Sys W} {i fd : Nat} {e e' : Entry} (magicBuf : Ptr) :
      g.dispatcher = .scanning i fd → g.file entries fd = some e →
      (magicScan tr e.bytes magicBuf).2 = false → entries[i]? = some e' →
      Step opt tr entries g { g with dispatcher := .sending ⟨fd,e'.ftsPath,i⟩ }
  | closeBinary {g : Sys W} {i fd : Nat} : g.dispatcher = .closing i fd →
      Step opt tr entries g { g.close fd with dispatcher := .next (i+1) }
  | send {g : Sys W} {fi : FileInfo} : g.dispatcher = .sending fi →
      Step opt tr entries g { g with
        dispatcher := .next (fi.entry+1),pipe := g.pipe ++ [fi],sent := fi.entry :: g.sent }
  | closeEnd {g : Sys W} : g.dispatcher = .finishing →
      Step opt tr entries g { g with dispatcher := .ended,writeOpen := false }
  | lock {g : Sys W} {w : W} : (g.worker w).pc = .locking → g.readmtx = none →
      Step opt tr entries g { g.setPc w .reading with readmtx := some w }
  | receive {g : Sys W} {w : W} {fi : FileInfo} {rest : List FileInfo} :
      (g.worker w).pc = .reading → g.pipe = fi :: rest →
      Step opt tr entries g { g.setPc w (.unlocking (some fi)) with pipe := rest }
  | endOfPipe {g : Sys W} {w : W} : (g.worker w).pc = .reading → g.pipe = [] →
      g.writeOpen = false → Step opt tr entries g (g.setPc w (.unlocking none))
  | unlock {g : Sys W} {w : W} {fi : FileInfo} : (g.worker w).pc = .unlocking (some fi) →
      Step opt tr entries g { g.setPc w (.mapping fi) with readmtx := none }
  | breaks {g : Sys W} {w : W} : (g.worker w).pc = .unlocking none →
      Step opt tr entries g { g.setPc w .leaving with readmtx := none }
  | work {g : Sys W} {w : W} {x : Worker} {s : Shared} :
      Work opt (g.file entries) (g.worker w,g.shared) (x,s) →
      Step opt tr entries g { g with worker := update g.worker w x,shared := s }
  | drop {g : Sys W} {w : W} {fi : FileInfo} : (g.worker w).pc = .dropping fi →
      Step opt tr entries g (((g.setPc w .locking).close fi.fd).finish w fi)
  | unmap {g : Sys W} {w : W} {fi : FileInfo} : (g.worker w).pc = .unmapping fi →
      Step opt tr entries g (((g.setPc w .locking).close fi.fd).finish w fi)

def initialSys (W : Type) : Sys W where
  dispatcher := .next 0
  pipe := []
  writeOpen := true
  readmtx := none
  worker := fun _ => ⟨.starting,⟨fun _ => 0,0,0⟩,noKmp⟩
  shared := ⟨⟨0,0⟩,[],[]⟩
  fds := fun _ => none
  opened := []
  sent := []
  closed := []
  finished := fun _ => []

def Reachable (opt : Options) (tr : Trie) (entries : List Entry) : Sys W → Prop :=
  Relation.ReflTransGen (Step opt tr entries) (initialSys W)

end SSearcher
