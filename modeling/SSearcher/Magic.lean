import SSearcher.Machine
import SSearcher.TrieSpec
set_option autoImplicit false

/-! The signatures of magic.c and the verdict on a file. -/
namespace SSearcher
open Memory Words

/-- The rows of magic_index, their lengths in the last column. -/
def magicIndex : List (List UInt8) := [
  [0x00,0x00,0x00,0x14,0x66,0x74,0x79,0x70,8],
  [0x00,0x00,0x00,0x18,0x66,0x74,0x79,0x70,8],
  [0x00,0x00,0x00,0x20,0x66,0x74,0x79,0x70,8],
  [0x00,0x00,0x01,0x00,0x00,0x00,0x00,0x00,4],
  [0x01,0x78,0x00,0x00,0x00,0x00,0x00,0x00,2],
  [0x1F,0x9D,0x00,0x00,0x00,0x00,0x00,0x00,2],
  [0x1F,0xA0,0x00,0x00,0x00,0x00,0x00,0x00,2],
  [0x21,0x3C,0x61,0x72,0x63,0x68,0x3E,0x0A,8],
  [0x25,0x50,0x44,0x46,0x00,0x00,0x00,0x00,4],
  [0x38,0x42,0x50,0x53,0x00,0x00,0x00,0x00,4],
  [0x42,0x4D,0x00,0x00,0x00,0x00,0x00,0x00,2],
  [0x43,0x44,0x30,0x30,0x31,0x00,0x00,0x00,5],
  [0x47,0x49,0x46,0x38,0x37,0x61,0x00,0x00,6],
  [0x47,0x49,0x46,0x38,0x39,0x61,0x00,0x00,6],
  [0x49,0x44,0x33,0x00,0x00,0x00,0x00,0x00,3],
  [0x49,0x49,0x2A,0x00,0x00,0x00,0x00,0x00,4],
  [0x4D,0x4D,0x00,0x2A,0x00,0x00,0x00,0x00,4],
  [0x4D,0x5A,0x00,0x00,0x00,0x00,0x00,0x00,2],
  [0x4F,0x67,0x67,0x53,0x00,0x00,0x00,0x00,4],
  [0x50,0x4B,0x03,0x04,0x00,0x00,0x00,0x00,4],
  [0x50,0x4B,0x05,0x06,0x00,0x00,0x00,0x00,4],
  [0x50,0x4B,0x07,0x08,0x00,0x00,0x00,0x00,4],
  [0x52,0x61,0x72,0x21,0x1A,0x07,0x00,0x00,7],
  [0x52,0x61,0x72,0x21,0x1A,0x07,0x01,0x00,8],
  [0x66,0x4C,0x61,0x43,0x00,0x00,0x00,0x00,4],
  [0x7F,0x45,0x4C,0x46,0x00,0x00,0x00,0x00,4],
  [0x89,0x50,0x4E,0x47,0x0D,0x0A,0x1A,0x0A,8],
  [0xCA,0xFE,0xBA,0xBE,0x00,0x00,0x00,0x00,4],
  [0xCE,0xFA,0xED,0xFE,0x00,0x00,0x00,0x00,4],
  [0xCF,0xFA,0xED,0xFE,0x00,0x00,0x00,0x00,4],
  [0xD0,0xCF,0x11,0xE0,0x00,0x00,0x00,0x00,4],
  [0xFE,0xED,0xFA,0xCE,0x00,0x00,0x00,0x00,4],
  [0xFE,0xED,0xFA,0xCF,0x00,0x00,0x00,0x00,4],
  [0xFF,0xFB,0x00,0x00,0x00,0x00,0x00,0x00,2]
]

def signature (row : List UInt8) : List UInt8 := row.take (row.getD 8 0).toNat

/-- The assertion on `size`. -/
def target? (w : List UInt8) : Option Target := if h : w ≠ [] then some ⟨w,h⟩ else none

def insertRow (tr : Trie) (row : List UInt8) : Option Trie :=
  (target? (signature row)).map fun w => (trieInsert tr w).1

def magicInit (tr : Option Trie) : Option Trie := magicIndex.foldlM insertRow (trieInit tr)

/-- What a read of 16 bytes from the start of a file leaves in a buffer. -/
def readHead (content : List UInt8) (magicBuf : Ptr) : Ptr := put magicBuf 0 (content.take 16)

/-- `magicBuf` is what the stack holds before the call. -/
def magicScan (tr : Trie) (content : List UInt8) (magicBuf : Ptr) : Trie × Bool :=
  let r := trieScan tr ⟨slice (readHead content magicBuf) 0 16,
    List.ne_nil_of_length_pos (by simp)⟩
  (r.1,r.2.isSome)

/-- The verdicts on a sequence of files, each with the bytes its call finds on the stack. -/
def magicScans (tr : Trie) : List (List UInt8 × Ptr) → List Bool
  | [] => []
  | file::files =>
    (magicScan tr file.1 file.2).2 :: magicScans (magicScan tr file.1 file.2).1 files

def IsMagic (content : List UInt8) : Prop :=
  ∃ row, row ∈ magicIndex ∧ signature row <+: content

instance (content : List UInt8) : Decidable (IsMagic content) :=
  inferInstanceAs (Decidable (∃ row, row ∈ magicIndex ∧ signature row <+: content))

/-- A row goes on behind the end of the file, and the stack holds the rest of it. -/
def Completed (content : List UInt8) (magicBuf : Ptr) : Prop :=
  ∃ row, row ∈ magicIndex ∧ content.length < (signature row).length ∧
    signature row = content ++ slice magicBuf content.length
      ((signature row).length-content.length)

def signatures (rows : List (List UInt8)) : Set (List UInt8) :=
  {w | ∃ row, row ∈ rows ∧ signature row = w}

theorem signature_length {row : List UInt8} (h : row ∈ magicIndex) :
    0 < (signature row).length ∧ (signature row).length ≤ 8 := by
  revert row
  decide

theorem signatures_apart {row row' : List UInt8} (h : row ∈ magicIndex) (h' : row' ∈ magicIndex)
    (hpre : signature row <+: signature row') : signature row = signature row' := by
  have hall : ∀ r, r ∈ magicIndex → ∀ r', r' ∈ magicIndex → signature r <+: signature r' →
      signature r = signature r' := by decide
  exact hall row h row' h' hpre

theorem insertRow_words (t : Trie) {row : List UInt8} (h : 0 < (signature row).length) :
    ∃ tr, insertRow t row = some tr ∧ tr.words = insert (signature row) t.words := by
  have hne : signature row ≠ [] := List.ne_nil_of_length_pos h
  refine ⟨_,?_,trieWalk_words t (signature row)⟩
  rw [insertRow,target?,dif_pos hne]
  rfl

theorem insertRows_words {rows : List (List UInt8)}
    (h : ∀ row, row ∈ rows → 0 < (signature row).length) (t : Trie) :
    ∃ tr, rows.foldlM insertRow t = some tr ∧ tr.words = t.words ∪ signatures rows := by
  induction rows generalizing t with
  | nil => exact ⟨t,rfl,by simp [signatures]⟩
  | cons row rows ih =>
    obtain ⟨t₁,h₁,hw₁⟩ := insertRow_words t (h row (by simp))
    obtain ⟨tr,htr,hw⟩ := ih (fun r hr => h r (by simp [hr])) t₁
    refine ⟨tr,?_,?_⟩
    · rw [List.foldlM_cons,h₁]
      exact htr
    · rw [hw,hw₁]
      ext w
      simp [signatures,eq_comm,or_assoc,or_left_comm]

theorem magicInit_words : ∃ tr, magicInit none = some tr ∧ tr.words = signatures magicIndex := by
  obtain ⟨tr,htr,hw⟩ := insertRows_words (fun row hr => (signature_length hr).1) (trieInit none)
  exact ⟨tr,htr,by rw [hw,words_trieInit,Set.empty_union]⟩

theorem slice_readHead (content : List UInt8) (magicBuf : Ptr) :
    slice (readHead content magicBuf) 0 16 =
      content.take 16 ++ slice magicBuf (content.take 16).length (16-(content.take 16).length) := by
  have hle : (content.take 16).length ≤ 16 := List.length_take_le _ _
  have hn : 16 = (content.take 16).length+(16-(content.take 16).length) := by omega
  conv_lhs => rw [hn,slice_add]
  rw [readHead,slice_put,Nat.zero_add]
  exact congrArg _ (slice_congr fun i _ => put_above (by omega))

theorem prefix_readHead {content w : List UInt8} (magicBuf : Ptr) (hw : w.length ≤ 8) :
    w <+: slice (readHead content magicBuf) 0 16 ↔ w <+: content ∨
      content.length < w.length ∧
        w = content ++ slice magicBuf content.length (w.length-content.length) := by
  rw [slice_readHead]
  by_cases hlen : w.length ≤ content.length
  · have hle : w.length ≤ (content.take 16).length := by rw [List.length_take]; omega
    rw [or_iff_left (by omega)]
    constructor
    · intro h
      exact (List.prefix_of_prefix_length_le h (List.prefix_append _ _) hle).trans
        (List.take_prefix _ _)
    · intro h
      have htake : w <+: content.take 16 := List.prefix_take_iff.mpr ⟨h,by omega⟩
      exact htake.trans (List.prefix_append _ _)
  · have hshort : content.take 16 = content := List.take_of_length_le (by omega)
    rw [hshort]
    constructor
    · intro h
      obtain ⟨r,rfl⟩ := List.prefix_of_prefix_length_le (List.prefix_append _ _) h (by omega)
      have hr := (prefix_slice.mp ((List.prefix_append_right_inj _).mp h)).2
      refine .inr ⟨by omega,congrArg _ ?_⟩
      rwa [List.length_append,Nat.add_sub_cancel_left]
    · rintro (h | ⟨-,h⟩)
      · exact absurd h.length_le hlen
      · rw [h]
        refine (List.prefix_append_right_inj _).mpr (prefix_slice.mpr ?_)
        rw [length_slice]
        exact ⟨by omega,rfl⟩

theorem magicScan_reads (tr : Trie) (content : List UInt8) (magicBuf : Ptr) :
    (magicScan tr content magicBuf).1 = tr := trieWalk_reads true tr _

theorem magicScan_verdict {tr : Trie} (htr : tr.words = signatures magicIndex)
    (content : List UInt8) (magicBuf : Ptr) : (magicScan tr content magicBuf).2 = true ↔
      IsMagic content ∨ Completed content magicBuf := by
  have hleaf : tr.isleaf = false := by
    rw [Bool.eq_false_iff,Ne,← Trie.nil_mem_words,htr]
    rintro ⟨row,hrow,hnil⟩
    have hlen := (signature_length hrow).1
    rw [hnil] at hlen
    exact absurd hlen (by decide)
  have hscan : (magicScan tr content magicBuf).2 = true ↔
      ∃ row, row ∈ magicIndex ∧ signature row <+: slice (readHead content magicBuf) 0 16 := by
    simp only [magicScan,trieScan,Option.isSome_iff_exists,trieWalk_scan hleaf,exists_shortest,htr]
    constructor
    · rintro ⟨w,⟨row,hrow,rfl⟩,hw⟩
      exact ⟨row,hrow,hw⟩
    · rintro ⟨row,hrow,hw⟩
      exact ⟨_,⟨row,hrow,rfl⟩,hw⟩
  rw [hscan,IsMagic,Completed,← exists_or]
  refine exists_congr fun row => ?_
  rw [← and_or_left]
  exact and_congr_right fun hrow => prefix_readHead magicBuf (signature_length hrow).2

theorem IsMagic.not_completed {content : List UInt8} {magicBuf : Ptr} (h : IsMagic content) :
    ¬ Completed content magicBuf := by
  rintro ⟨row',hrow',hlen,heq⟩
  obtain ⟨row,hrow,hpre⟩ := h
  have hsub : signature row <+: signature row' := by
    rw [heq]
    exact hpre.trans (List.prefix_append _ _)
  have hle := hpre.length_le
  rw [signatures_apart hrow hrow' hsub] at hle
  omega

/-- The verdicts depend on the files alone exactly when the stack completes none of
them to a signature. -/
theorem verdicts_iff (files : List (List UInt8 × Ptr)) : ∃ tr, magicInit none = some tr ∧
    (magicScans tr files = files.map (fun file => decide (IsMagic file.1)) ↔
      ∀ file, file ∈ files → ¬ Completed file.1 file.2) := by
  obtain ⟨tr,hinit,htr⟩ := magicInit_words
  refine ⟨tr,hinit,?_⟩
  induction files with
  | nil => simp [magicScans]
  | cons file files ih =>
    rw [magicScans,magicScan_reads,List.map_cons,List.cons.injEq,ih,List.forall_mem_cons]
    refine and_congr_left fun _ => ?_
    rw [Bool.eq_iff_iff,magicScan_verdict htr,decide_eq_true_iff]
    constructor
    · intro h hc
      exact (h.mp (.inr hc)).not_completed hc
    · intro h
      rw [or_iff_left h]

/-- A file of the one byte 'M', with a 'Z' left on the stack. -/
theorem stale_verdict : ∃ tr, magicInit none = some tr ∧
    magicScans tr [([77],ofList [0,90])] ≠ [([77],ofList [0,90])].map
      fun file : List UInt8 × Ptr => decide (IsMagic file.1) := by
  obtain ⟨tr,hinit,htr⟩ := magicInit_words
  refine ⟨tr,hinit,fun h => ?_⟩
  have hno : ¬ IsMagic [77] := by decide
  have hyes : (magicScan tr [77] (ofList [0,90])).2 = true := by
    rw [magicScan_verdict htr]
    exact .inr ⟨[0x4D,0x5A,0,0,0,0,0,0,2],by decide,by decide,by decide⟩
  simp [magicScans,hyes,hno] at h

end SSearcher
