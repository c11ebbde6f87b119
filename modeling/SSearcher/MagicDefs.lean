import Mathlib.Data.List.Sort
import SSearcher.Magic
set_option autoImplicit false

/-! utils/gen_magic_header.pl, which makes the rows of magic.c from the lines of
magic_defs. -/
namespace SSearcher
open Memory Words

/-- `\s` -/
def isSpace (c : Char) : Bool := c.toNat = 32 || 9 ≤ c.toNat && c.toNat ≤ 13

/-- `/^((?:[^\/])\S+)\s+(\S+)\n$/`. Each run ends where its kind of characters does, so
the longest runs are the only ones to try. -/
def matchDef : List Char → Option (List Char × List Char)
  | [] => none
  | c::line =>
    let key := line.takeWhile (!isSpace ·)
    let space := (line.dropWhile (!isSpace ·)).takeWhile isSpace
    let rest := (line.dropWhile (!isSpace ·)).dropWhile isSpace
    let name := rest.takeWhile (!isSpace ·)
    if c ≠ '/' ∧ key ≠ [] ∧ space ≠ [] ∧ name ≠ [] ∧ rest.dropWhile (!isSpace ·) = ['\n'] then
      some (c::key,name)
    else none

/-- `$1` and `$2`, which a failed match leaves as they are, and the hash from codes to
names. -/
structure Defs where
  captures : Option (List Char × List Char)
  magicMap : List (List Char × List Char)

/-- An undefined `$1` is the empty key. -/
def defStep (s : Defs) (line : List Char) : Defs :=
  let captures := (matchDef line).or s.captures
  let d := captures.getD ([],[])
  ⟨captures,s.magicMap.filter (fun x => x.1 ≠ d.1) ++ [d]⟩

def resolveDefs (lines : List (List Char)) : List (List Char × List Char) :=
  (lines.foldl defStep ⟨none,[]⟩).magicMap

/-- `m/.{2}/g` -/
def pairs : List Char → List (Char × Char)
  | c::d::l => (c,d)::pairs l
  | _ => []

def hexDigit? (c : Char) : Option Nat :=
  if '0' ≤ c ∧ c ≤ '9' then some (c.toNat-48)
  else if 'A' ≤ c ∧ c ≤ 'F' then some (c.toNat-55)
  else if 'a' ≤ c ∧ c ≤ 'f' then some (c.toNat-87)
  else none

/-- What the C compiler makes of "0x" and two characters. -/
def hexByte? (x : Char × Char) : Option UInt8 := do
  let hi ← hexDigit? x.1
  let lo ← hexDigit? x.2
  return UInt8.ofNat (16*hi+lo)

/-- The bytes of a key, zeros up to the eighth column, and the length. -/
def defRow (key : List Char) : Option (List UInt8) := do
  let output ← (pairs key).mapM hexByte?
  return output ++ List.replicate (8-output.length) 0 ++ [UInt8.ofNat output.length]

structure MagicSource where
  defines : List (List Char × List Char)
  magicIndex : List (List UInt8)

/-- The order of Perl's sort -/
def strLe : List Char → List Char → Bool
  | [],_ => true
  | _::_,[] => false
  | c::s,d::t => if c = d then strLe s t else c.toNat ≤ d.toNat

def genMagic (lines : List (List Char)) : Option MagicSource := do
  let magicMap := resolveDefs lines
  let keys := (magicMap.map Prod.fst).insertionSort fun s t => strLe s t = true
  let rows ← keys.mapM defRow
  return ⟨keys.map fun key => ((magicMap.lookup key).getD [],key),rows⟩

def magicDefs : List (List Char) := List.map String.toList [
  "D0CF11E0         MS_OFFICE\n",
  "664C6143         FLAC\n",
  "4344303031       ISO9660\n",
  "424D             BMP\n",
  "494433           MP3_V2\n",
  "FFFB             MP3_V01\n",
  "38425053         PSD\n",
  "4F676753         OGG\n",
  "25504446         PDF\n",
  "/* FFFE0000         UTF32_BOM_LE */\n",
  "/* FFFE             UTF16_BOM_LE */\n",
  "CFFAEDFE         MACH64_O_BE\n",
  "CEFAEDFE         MACH32_O_BE\n",
  "FEEDFACF         MACH64_O_LE\n",
  "FEEDFACE         MACH32_O_LE\n",
  "/* EFBBBF           UTF8_BOM */\n",
  "CAFEBABE         MACH_O_FAT_CLASS\n",
  "89504E470D0A1A0A PNG\n",
  "7F454C46         ELF\n",
  "526172211A070100 RAR50\n",
  "526172211A0700   RAR15\n",
  "504B0304         ZIP\n",
  "504B0506         ZIP_EMPTY\n",
  "504B0708         ZIP_SPANNED\n",
  "4D5A             EXE\n",
  "49492A00         TIF\n",
  "4D4D002A         TIFF\n",
  "474946383761     GIF0\n",
  "474946383961     GIF1\n",
  "1FA0             TAR_ZIP_LZH\n",
  "1F9D             TAR_ZIP_LZW\n",
  "00000100         ICO\n",
  "0000001466747970 3GPP_FTYP\n",
  "0000002066747970 3GPP2_FTYP\n",
  "0000001866747970 MP4_FTYP\n",
  "0178             VAX_COFF_EX\n",
  "213C617263683E0A ARCH_BIN\n"]

theorem magicDefs_rows : (genMagic magicDefs).map MagicSource.magicIndex = some magicIndex := by
  decide +kernel

variable {s : Defs} {line key : List Char} {lines : List (List Char)} {w : List UInt8}

def Named (lines : List (List Char)) (key : List Char) : Prop :=
  ∃ line name, line ∈ lines ∧ matchDef line = some (key,name)

def Defs.keys (s : Defs) : List (List Char) := s.magicMap.map Prod.fst

theorem mem_keys_step : key ∈ (defStep s line).keys ↔
    key ∈ s.keys ∨ key = (((matchDef line).or s.captures).getD ([],[])).1 := by
  rw [Defs.keys,Defs.keys,defStep]
  generalize ((matchDef line).or s.captures).getD ([],[]) = d
  by_cases hkey : key = d.1
  · subst hkey
    simp
  · simp [hkey]

theorem keys_mono (h : key ∈ s.keys) : key ∈ (lines.foldl defStep s).keys := by
  induction lines generalizing s with
  | nil => exact h
  | cons line lines ih => exact ih (mem_keys_step.mpr (.inl h))

theorem named_mem_keys (h : Named lines key) : key ∈ (lines.foldl defStep s).keys := by
  obtain ⟨line,name,hmem,hdef⟩ := h
  induction lines generalizing s with
  | nil => cases hmem
  | cons l lines ih =>
    rcases List.mem_cons.mp hmem with rfl | hmem
    · have hkey : key = (((matchDef line).or s.captures).getD ([],[])).1 := by rw [hdef]; rfl
      rw [List.foldl_cons]
      exact keys_mono (mem_keys_step.mpr (.inr hkey))
    · exact ih hmem

theorem of_mem_keys (h : key ∈ (lines.foldl defStep s).keys) :
    key ∈ s.keys ∨ key = (s.captures.getD ([],[])).1 ∨ Named lines key := by
  induction lines generalizing s with
  | nil => exact .inl h
  | cons line lines ih =>
    have hstep : key = (((matchDef line).or s.captures).getD ([],[])).1 →
        key = (s.captures.getD ([],[])).1 ∨ Named (line::lines) key := by
      intro hkey
      cases hdef : matchDef line with
      | none =>
        rw [hdef,Option.none_or] at hkey
        exact .inl hkey
      | some d =>
        rw [hdef,Option.some_or,Option.getD_some] at hkey
        exact .inr ⟨line,d.2,List.mem_cons_self,by rw [hdef,hkey]⟩
    rcases ih h with h | h | ⟨l,name,hl,hdef⟩
    · exact (mem_keys_step.mp h).imp_right hstep
    · exact .inr (hstep h)
    · exact .inr (.inr ⟨l,name,List.mem_cons_of_mem _ hl,hdef⟩)

/-- Behind a first line that defines a key, the keys are those of the lines. -/
theorem mem_keys_iff (hfirst : ∀ l ls, lines = l::ls → (matchDef l).isSome = true) :
    key ∈ (lines.foldl defStep ⟨none,[]⟩).keys ↔ Named lines key := by
  refine ⟨fun h => ?_,named_mem_keys⟩
  cases lines with
  | nil => cases h
  | cons l ls =>
    obtain ⟨d,hdef⟩ := Option.isSome_iff_exists.mp (hfirst l ls rfl)
    have hd : key = d.1 → Named (l::ls) key := by
      rintro rfl
      exact ⟨l,d.2,List.mem_cons_self,hdef⟩
    have hrest : key ∈ (ls.foldl defStep (defStep ⟨none,[]⟩ l)).keys := h
    rcases of_mem_keys hrest with h | h | ⟨line,name,hmem,hline⟩
    · rcases mem_keys_step.mp h with h | h
      · cases h
      · exact hd (by simpa [hdef] using h)
    · exact hd (by simpa [defStep,hdef] using h)
    · exact ⟨line,name,List.mem_cons_of_mem l hmem,hline⟩

theorem nil_mem_keys {l : List Char} (hdef : matchDef l = none) :
    [] ∈ ((l::lines).foldl defStep ⟨none,[]⟩).keys := by
  have hkey : [] = (((matchDef l).or none).getD ([],[])).1 := by rw [hdef]; rfl
  rw [List.foldl_cons]
  exact keys_mono (mem_keys_step.mpr (.inr hkey))

def hexDigit (n : Nat) : Char := if n < 10 then Char.ofNat (48+n) else Char.ofNat (55+n)

def hexText (w : List UInt8) : List Char :=
  w.flatMap fun b => [hexDigit (b.toNat/16),hexDigit (b.toNat%16)]

theorem hexDigit?_hexDigit {n : Nat} (h : n < 16) : hexDigit? (hexDigit n) = some n := by
  revert n
  decide

theorem hexByte?_text (b : UInt8) :
    hexByte? (hexDigit (b.toNat/16),hexDigit (b.toNat%16)) = some b := by
  have hlt := b.toNat_lt
  rw [hexByte?,hexDigit?_hexDigit (by omega),hexDigit?_hexDigit (by omega)]
  change some (UInt8.ofNat (16*(b.toNat/16)+b.toNat%16)) = some b
  rw [Nat.div_add_mod,UInt8.ofNat_toNat]

theorem pairs_hexText (w : List UInt8) : (pairs (hexText w)).mapM hexByte? = some w := by
  induction w with
  | nil => rfl
  | cons b w ih =>
    have hpairs : pairs (hexText (b::w)) =
        (hexDigit (b.toNat/16),hexDigit (b.toNat%16)) :: pairs (hexText w) := rfl
    rw [hpairs,List.mapM_cons,hexByte?_text,ih]
    rfl

theorem hexText_inj {w w' : List UInt8} (h : hexText w = hexText w') : w = w' :=
  Option.some.inj (by rw [← pairs_hexText,h,pairs_hexText])

def rowOf (w : List UInt8) : List UInt8 :=
  w ++ List.replicate (8-w.length) 0 ++ [UInt8.ofNat w.length]

theorem defRow_hexText (w : List UInt8) : defRow (hexText w) = some (rowOf w) := by
  rw [defRow,pairs_hexText]
  rfl

theorem signature_rowOf (h : w.length ≤ 8) : signature (rowOf w) = w := by
  have hlen : (w ++ List.replicate (8-w.length) (0 : UInt8)).length = 8 := by
    simp only [List.length_append,List.length_replicate]
    omega
  have hlast : (rowOf w).getD 8 0 = UInt8.ofNat w.length := by
    rw [rowOf,List.getD_eq_getElem?_getD,List.getElem?_append_right (Nat.le_of_eq hlen),hlen]
    rfl
  have hcount : (UInt8.ofNat w.length).toNat = w.length := by
    rw [UInt8.toNat_ofNat']
    omega
  rw [signature,hlast,hcount,rowOf,List.append_assoc,List.take_left]

theorem mapM_some {α β : Type} {f : α → Option β} {l : List α}
    (h : ∀ x, x ∈ l → ∃ y, f x = some y) :
    ∃ ys, l.mapM f = some ys ∧ ∀ y, y ∈ ys ↔ ∃ x, x ∈ l ∧ f x = some y := by
  induction l with
  | nil => exact ⟨[],rfl,by simp⟩
  | cons x l ih =>
    obtain ⟨hx,hl⟩ := List.forall_mem_cons.mp h
    obtain ⟨y,hy⟩ := hx
    obtain ⟨ys,hys,hmem⟩ := ih hl
    refine ⟨y::ys,by rw [List.mapM_cons,hy,hys]; rfl,fun z => ?_⟩
    simp [hmem,hy,eq_comm]

theorem insertRows_empty {rows : List (List UInt8)} (h : ∃ row, row ∈ rows ∧ signature row = [])
    (t : Trie) : rows.foldlM insertRow t = none := by
  obtain ⟨row,hrow,hsig⟩ := h
  induction rows generalizing t with
  | nil => cases hrow
  | cons r rows ih =>
    rw [List.foldlM_cons]
    rcases List.mem_cons.mp hrow with rfl | hrow
    · have hstop : insertRow t row = none := by
        rw [insertRow,target?,hsig]
        rfl
      rw [hstop]
      rfl
    · cases insertRow t r with
      | none => rfl
      | some t => exact ih t hrow

def keysOf (lines : List (List Char)) : List (List Char) := (lines.foldl defStep ⟨none,[]⟩).keys

/-- The keys of the lines spell signatures of one to eight bytes. -/
def Spelled (lines : List (List Char)) : Prop :=
  ∀ key, Named lines key → ∃ w, key = hexText w ∧ w ≠ [] ∧ w.length ≤ 8

theorem genMagic_rows (hkeys : Spelled lines) : ∃ src, genMagic lines = some src ∧
    ∀ row, row ∈ src.magicIndex ↔ ∃ w, hexText w ∈ keysOf lines ∧ w.length ≤ 8 ∧ row = rowOf w := by
  have hall : ∀ key, key ∈ keysOf lines → ∃ w, key = hexText w ∧ w.length ≤ 8 := by
    intro key hkey
    rcases of_mem_keys hkey with h | h | h
    · cases h
    · exact ⟨[],h,Nat.zero_le 8⟩
    · obtain ⟨w,hw,-,hlen⟩ := hkeys key h
      exact ⟨w,hw,hlen⟩
  have hsorted : ∀ key, key ∈ ((resolveDefs lines).map Prod.fst).insertionSort
      (fun s t => strLe s t = true) ↔ key ∈ keysOf lines := fun key => List.mem_insertionSort _
  obtain ⟨rows,hrows,hmem⟩ := mapM_some (f := defRow) (fun key hkey => by
    obtain ⟨w,rfl,-⟩ := hall key ((hsorted key).mp hkey)
    exact ⟨_,defRow_hexText w⟩)
  refine ⟨⟨_,rows⟩,by rw [genMagic,hrows]; rfl,fun row => ?_⟩
  rw [hmem]
  constructor
  · rintro ⟨key,hkey,hdef⟩
    have hin := (hsorted key).mp hkey
    obtain ⟨w,rfl,hlen⟩ := hall key hin
    exact ⟨w,hin,hlen,Option.some.inj (hdef.symm.trans (defRow_hexText w))⟩
  · rintro ⟨w,hin,-,rfl⟩
    exact ⟨_,(hsorted _).mpr hin,defRow_hexText w⟩

/-- For any definitions of one to eight bytes the script makes a table, and magic_init
makes of it the trie of exactly these definitions, unless the first line is no
definition: then an empty key gets into the table, and the assertion on the size fails. -/
theorem genMagic_iff (lines : List (List Char)) (hkeys : Spelled lines) :
    ∃ src, genMagic lines = some src ∧
      ((∃ tr, src.magicIndex.foldlM insertRow (trieInit none) = some tr ∧
          ∀ w, w ∈ tr.words ↔ Named lines (hexText w)) ↔
        ∀ l ls, lines = l::ls → (matchDef l).isSome = true) ∧
      ∀ l ls, lines = l::ls → matchDef l = none →
        (∃ row, row ∈ src.magicIndex ∧ signature row = []) ∧
          src.magicIndex.foldlM insertRow (trieInit none) = none := by
  obtain ⟨src,hsrc,hrow⟩ := genMagic_rows hkeys
  have hfails : ∀ l ls, lines = l::ls → matchDef l = none →
      (∃ row, row ∈ src.magicIndex ∧ signature row = []) ∧
        src.magicIndex.foldlM insertRow (trieInit none) = none := by
    rintro l ls rfl hdef
    have hempty : ∃ row, row ∈ src.magicIndex ∧ signature row = [] :=
      ⟨rowOf [],(hrow _).mpr ⟨[],nil_mem_keys hdef,Nat.zero_le 8,rfl⟩,signature_rowOf (Nat.zero_le 8)⟩
    exact ⟨hempty,insertRows_empty hempty (trieInit none)⟩
  refine ⟨src,hsrc,⟨?_,fun hfirst => ?_⟩,hfails⟩
  · rintro ⟨tr,htr,-⟩ l ls hlines
    by_contra hdef
    have hstop := (hfails l ls hlines (Option.not_isSome_iff_eq_none.mp hdef)).2
    rw [hstop] at htr
    cases htr
  · have hnamed : ∀ w, hexText w ∈ keysOf lines ↔ Named lines (hexText w) :=
      fun w => mem_keys_iff hfirst
    have hpos : ∀ row, row ∈ src.magicIndex → 0 < (signature row).length := by
      intro row hr
      obtain ⟨w,hw,hlen,rfl⟩ := (hrow row).mp hr
      obtain ⟨w',heq,hne,-⟩ := hkeys _ ((hnamed w).mp hw)
      rw [signature_rowOf hlen,hexText_inj heq]
      exact List.length_pos_of_ne_nil hne
    obtain ⟨tr,htr,hwords⟩ := insertRows_words hpos (trieInit none)
    refine ⟨tr,htr,fun w => ?_⟩
    rw [hwords,words_trieInit,Set.empty_union,← hnamed]
    constructor
    · rintro ⟨row,hr,rfl⟩
      obtain ⟨w,hw,hlen,rfl⟩ := (hrow row).mp hr
      rwa [signature_rowOf hlen]
    · intro hw
      obtain ⟨w',heq,-,hlen⟩ := hkeys _ ((hnamed w).mp hw)
      rw [← hexText_inj heq] at hlen
      exact ⟨rowOf w,(hrow _).mpr ⟨w,hw,hlen,rfl⟩,signature_rowOf hlen⟩

theorem magicDefs_spelled : Spelled magicDefs := by
  have hall : ∀ line, line ∈ magicDefs → (matchDef line).all (fun d =>
      ((pairs d.1).mapM hexByte?).any fun w => d.1 = hexText w ∧ w ≠ [] ∧ w.length ≤ 8) = true := by
    decide +kernel
  rintro key ⟨line,name,hline,hdef⟩
  have hone := hall line hline
  rw [hdef,Option.all_some,Option.any_eq_true] at hone
  obtain ⟨w,-,hw⟩ := hone
  exact ⟨w,of_decide_eq_true hw⟩

theorem genMagic_iff_magicDefs : ∃ tr, magicInit none = some tr ∧
    ∀ w, w ∈ tr.words ↔ Named magicDefs (hexText w) := by
  obtain ⟨src,hsrc,hiff,-⟩ := genMagic_iff magicDefs magicDefs_spelled
  have hrows : src.magicIndex = magicIndex := by
    have hgen := magicDefs_rows
    rw [hsrc] at hgen
    exact Option.some.inj hgen
  have hfirst : ∀ l ls, magicDefs = l::ls → (matchDef l).isSome = true := by
    intro l ls heq
    rw [← (List.cons.inj heq).1]
    decide
  rw [hrows] at hiff
  exact hiff.mpr hfirst

end SSearcher
