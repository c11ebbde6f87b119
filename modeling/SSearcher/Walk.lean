import SSearcher.Lines
set_option autoImplicit false

/-! The directory tree. fts_read walks it, and the dispatcher tells it which directories
to leave out. -/
namespace SSearcher
open Runs Memory Matching

structure File where
  isReg : Bool
  opens : Bool
  bytes : List UInt8
  small : bytes.length < 2^63

/-- What is left of a directory, in the order of readdir. Symbolic links are followed. -/
inductive Dir where
  | nil : Dir
  | file : List UInt8 → File → Dir → Dir
  | dir : List UInt8 → Dir → Dir → Dir

/-- FTSENT; `names` leads to it from ".", as its parents do. `none` is a directory. -/
structure Ftsent where
  names : List (List UInt8)
  file : Option File

def Ftsent.ftsName (x : Ftsent) : List UInt8 := x.names.getLastD [46]

def ftsPath (names : List (List UInt8)) : List UInt8 := 46 :: names.flatMap fun name => 47 :: name

def Ftsent.entry (x : Ftsent) : Entry := match x.file with
  | none => ⟨x.ftsName,ftsPath x.names,false,true,[],Nat.two_pow_pos 63⟩
  | some f => ⟨x.ftsName,ftsPath x.names,f.isReg,f.opens,f.bytes,f.small⟩

/-- What fts has still to visit: a directory before and after its contents, and the rest
of the contents. -/
inductive Visit where
  | pre : List (List UInt8) → Dir → Visit
  | rest : List (List UInt8) → Dir → Visit
  | post : List (List UInt8) → Visit

/-- `last` is a directory that was visited for the first time just now, `skip` its
FTS_SKIP. -/
structure Fts where
  stack : List Visit
  last : Option (List (List UInt8) × Dir)
  skip : Bool

def ftsOpen (d : Dir) : Fts := ⟨[.pre [] d],none,false⟩

def ftsNext : List Visit → Option (Ftsent × Fts)
  | [] => none
  | .pre names c :: s => some (⟨names,none⟩,⟨s,some (names,c),false⟩)
  | .rest _ .nil :: s => ftsNext s
  | .rest names (.file name f d) :: s =>
    some (⟨names++[name],some f⟩,⟨.rest names d :: s,none,false⟩)
  | .rest names (.dir name c d) :: s =>
    some (⟨names++[name],none⟩,⟨.rest names d :: s,some (names++[name],c),false⟩)
  | .post names :: s => some (⟨names,none⟩,⟨s,none,false⟩)

def ftsRead (t : Fts) : Option (Ftsent × Fts) := match t.last with
  | none => ftsNext t.stack
  | some (names,c) => ftsNext (if t.skip then .post names :: t.stack
      else .rest names c :: .post names :: t.stack)

def ftsSet (t : Fts) : Fts := { t with skip := true }

/-- The entries that the loop of dispatcher_thread gets. -/
def readEntries : Nat → Fts → List Ftsent
  | 0,_ => []
  | fuel+1,t => match ftsRead t with
    | none => []
    | some (x,t) => x :: readEntries fuel (if x.ftsName ∈ skipNames then ftsSet t else t)

def visitDir (names : List (List UInt8)) (contents : List Ftsent) : List Ftsent :=
  ⟨names,none⟩ :: ((if Ftsent.ftsName ⟨names,none⟩ ∈ skipNames then [] else contents) ++
    [⟨names,none⟩])

def Dir.walk (names : List (List UInt8)) : Dir → List Ftsent
  | nil => []
  | file name f d => ⟨names++[name],some f⟩ :: d.walk names
  | dir name c d => visitDir (names++[name]) (c.walk (names++[name])) ++ d.walk names

def Dir.size : Dir → Nat
  | nil => 0
  | file _ _ d => d.size+1
  | dir _ c d => c.size+d.size+2

def Dir.entries (d : Dir) : List Ftsent := readEntries (d.size+3) (ftsOpen d)

/-- The file has these names in the tree, from the root down. -/
inductive Dir.At : Dir → List (List UInt8) → File → Prop where
  | here {name : List UInt8} {f : File} {d : Dir} : At (.file name f d) [name] f
  | file {name : List UInt8} {f f' : File} {d : Dir} {p : List (List UInt8)} :
      At d p f → At (.file name f' d) p f
  | inside {name : List UInt8} {f : File} {c d : Dir} {p : List (List UInt8)} :
      At c p f → At (.dir name c d) (name::p) f
  | dir {name : List UInt8} {f : File} {c d : Dir} {p : List (List UInt8)} :
      At d p f → At (.dir name c d) p f

def Dir.names : Dir → List (List UInt8)
  | nil => []
  | file name _ d => name :: d.names
  | dir name _ d => name :: d.names

variable {x y : Ftsent} {t : Fts} {d : Dir} {f : File} {names p : List (List UInt8)}
  {name : List UInt8}

def Visit.walk : Visit → List Ftsent
  | pre names c => visitDir names (c.walk names)
  | rest names d => d.walk names
  | post names => [⟨names,none⟩]

def Fts.walk (t : Fts) : List Ftsent := (t.last.elim [] fun x =>
    (if t.skip then [] else x.2.walk x.1) ++ [⟨x.1,none⟩]) ++ t.stack.flatMap Visit.walk

variable {W : Type} {opt : Options} {tr : Trie} {g : Sys W} {i : Nat} {e : Entry}

end SSearcher
