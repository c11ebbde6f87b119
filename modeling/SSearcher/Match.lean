import SSearcher.Machine
set_option autoImplicit false

/-! match.c: the failure table and the search loop. -/
namespace SSearcher
open Runs

/-- The block kmp_table points to, with the number of entries it was allocated for. -/
structure Table where
  entries : Nat
  entry : Nat → Nat

/-- The thread-local variables of match.c. No table is the NULL pointer. -/
structure Kmp where
  pat : Ptr
  patLen : Nat
  kmpTable : Option Table

/-- `kmp_table == NULL`, as before the first kmp_prepare of a thread. -/
def noKmp : Kmp := ⟨fun _ => 0,0,none⟩

structure PrepareLoop where
  i : Nat
  table : Nat → Nat

def prepareStep (pattern : Ptr) (patternLength : Nat) (s : PrepareLoop) :
    Prog (PrepareLoop ⊕ (Nat → Nat)) :=
  if s.i < patternLength then do
    let a ← load .table s.table (s.i-1)
    let c ← load .pat pattern a
    let d ← load .pat pattern s.i
    if c = d then do
      let b ← load .table s.table (s.i-1)
      let table ← store .table s.table s.i (b+1)
      let i ← incInt s.i
      return .inl ⟨i,table⟩
    else do
      let table ← store .table s.table s.i 0
      let i ← incInt s.i
      return .inl ⟨i,table⟩
  else
    return .inr s.table

/-- A table that is already there is kept, whatever its size. What a fresh block
holds does not matter: every entry below the length is stored before it is loaded. -/
def kmpPrepare (k : Kmp) (pattern : Ptr) (patternLength : Nat) : Prog Kmp := do
  let block := k.kmpTable.getD ⟨patternLength,fun _ => 0⟩
  let table ← store .table block.entry 0 0
  let table ← Run.loop (prepareStep pattern patternLength) (patternLength+1) ⟨1,table⟩
  return ⟨pattern,patternLength,some ⟨block.entries,table⟩⟩

structure KmpLoop where
  patPos : Nat
  textPos : Nat
  lineCnt : Nat

/-- What kmp_match returns, with the values it leaves in `*linum` and `*matchpos`. -/
structure KmpRet where
  found : Bool
  linum : Nat
  matchpos : Nat
  deriving DecidableEq, Repr

def Kmp.tableEntry (k : Kmp) (i : Nat) : Prog Nat :=
  match k.kmpTable with
  | none => .stuck
  | some t => load .table t.entry i

def kmpHit (k : Kmp) (patPos textPos lineCnt : Nat) : Prog (KmpLoop ⊕ KmpRet) :=
  if patPos = subSize k.patLen 1 then
    return .inr ⟨true,lineCnt,u32 (subSize textPos k.patLen + 1)⟩
  else do
    let textPos ← incInt textPos
    return .inl ⟨patPos+1,textPos,lineCnt⟩

def kmpSkip (patPos textPos lineCnt : Nat) : Prog (KmpLoop ⊕ KmpRet) := do
  let textPos ← incInt textPos
  return .inl ⟨patPos,textPos,lineCnt⟩

/-- `lineCnt` is kept modulo 2^32: the int goes back into a uint32_t and is used for
nothing else. That it wraps is an assumption, past 2^31-1 its overflow is undefined. -/
def kmpStep (k : Kmp) (text : Ptr) (textLen : Nat) (s : KmpLoop) :
    Prog (KmpLoop ⊕ KmpRet) :=
  if s.textPos < textLen then do
    let c ← load .text text s.textPos
    let lineCnt := if c = newline then u32 (s.lineCnt+1) else s.lineCnt
    let c ← load .text text s.textPos
    let d ← load .pat k.pat s.patPos
    if c = d then
      kmpHit k s.patPos s.textPos lineCnt
    else if s.patPos = 0 then
      kmpSkip s.patPos s.textPos lineCnt
    else do
      let patPos ← k.tableEntry (s.patPos-1)
      let c ← load .text text s.textPos
      let d ← load .pat k.pat patPos
      if c = d then
        kmpHit k patPos s.textPos lineCnt
      else if patPos ≠ 0 then
        return .inl ⟨0,s.textPos,lineCnt⟩
      else
        kmpSkip patPos s.textPos lineCnt
  else
    return .inr ⟨false,s.lineCnt,2^32-1⟩

/-- No value: the search ran past the largest int. -/
def kmpMatch (k : Kmp) (text : Ptr) (textLen linum : Nat) : Prog KmpRet :=
  Run.loop (kmpStep k text textLen) (2*textLen+1) ⟨0,0,linum⟩

def kmpFinish (k : Kmp) : Kmp := { k with kmpTable := none }

end SSearcher
