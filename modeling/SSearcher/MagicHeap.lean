import SSearcher.NodesLife
set_option autoImplicit false

/-! The trie of magic.c on the heap: what the dispatcher makes, uses and gives back. -/
namespace SSearcher
open Runs Memory Function Links

namespace NodeHeap
variable {h h' : NodeHeap} {root : Addr} {t : Trie} {rows : List (List UInt8)} {n : Nat}

/-- The loop of magic_init. trie_insert asserts `root` and `size > 0`. -/
def insertRows : NodeHeap → List (List UInt8) → Heaped NodeHeap
  | h,[] => return h
  | h,row::rows =>
    match h.tr,target? (signature row) with
    | some root,some w => do
      let (_,h) ← h.trieInsert root w
      insertRows h rows
    | _,_ => .stuck

def magicInit (h : NodeHeap) : Heaped NodeHeap := do
  let (_,h) ← h.trieInit .tr
  insertRows h magicIndex

theorem head_ne_nil (content : List UInt8) (magicBuf : Ptr) :
    slice (readHead content magicBuf) 0 16 ≠ [] :=
  List.ne_nil_of_length_pos (by simp)

def magicScan (h : NodeHeap) (content : List UInt8) (magicBuf : Ptr) : Heaped Bool :=
  match h.tr with
  | some root => do
    let (r,_) ← h.trieScan root ⟨slice (readHead content magicBuf) 0 16,
      head_ne_nil content magicBuf⟩
    return r.isSome
  | none => .stuck

def magicScans (h : NodeHeap) : List (List UInt8 × Ptr) → Heaped (List Bool)
  | [] => return []
  | file::files => do
    let verdict ← h.magicScan file.1 file.2
    let verdicts ← h.magicScans files
    return verdict::verdicts

/-- `tr` keeps its value. -/
def magicFini (fuel : Nat) (h : NodeHeap) : Heaped NodeHeap :=
  match h.tr with
  | some root => trieDestroy fuel h root
  | none => .stuck

def rowsRoom : List (List UInt8) → Nat
  | [] => 0
  | row::rows => (signature row).length + rowsRoom rows

theorem insertRows_models (hm : h.Models root t) (htr : h.tr = some root)
    (hrows : ∀ row, row ∈ rows → signature row ≠ []) (hst : Stocked h (n+rowsRoom rows)) :
    ∃ t' h' log, rows.foldlM insertRow t = some t' ∧ (insertRows h rows).Gives h' log ∧
      h'.Models root t' ∧ Stocked h' n ∧ Grown h h' root log ∧
      ∀ v, v ∈ t'.paths → v ∈ t.paths ∨ ∃ row, row ∈ rows ∧ v <+: signature row := by
  induction rows generalizing h t with
  | nil => exact ⟨t,h,[],rfl,.pure _,hm,hst,.same rfl rfl rfl rfl ⟨rfl,rfl⟩,fun _ => .inl⟩
  | cons row rows ih =>
    have hne := hrows row List.mem_cons_self
    have htarget : target? (signature row) = some ⟨signature row,hne⟩ := dif_pos hne
    have hroom : n+rowsRoom (row::rows) =
        n+rowsRoom rows+(TrieCall.insert ⟨signature row,hne⟩).room := by
      rw [rowsRoom,Nat.add_comm (signature row).length,← Nat.add_assoc]
      rfl
    rw [hroom] at hst
    obtain ⟨r,h₁,log₁,hgives₁,hm₁,hst₁,hgrown₁,-⟩ := call_models hm _ hst
    obtain ⟨t',h',log,hfold,hgives,hm',hst',hgrown,hpaths⟩ := ih hm₁ (hgrown₁.tr.trans htr)
      (fun row hrow => hrows row (List.mem_cons_of_mem _ hrow)) hst₁
    refine ⟨t',h',_,?_,?_,hm',hst',hgrown₁.trans hgrown,fun v hv => ?_⟩
    · rw [List.foldlM_cons,insertRow,htarget]
      exact hfold
    · rw [insertRows,htr,htarget]
      exact hgives₁.bind hgives
    · rcases hpaths v hv with hv | ⟨row',hrow,hv⟩
      · rcases (trieWalk_paths t (signature row) v).mp hv with hv | hv
        · exact .inl hv
        · exact .inr ⟨row,List.mem_cons_self,hv⟩
      · exact .inr ⟨row',List.mem_cons_of_mem _ hrow,hv⟩

theorem trieInsert_dead (hdead : h.live root = false) (w : Target) :
    (h.trieInsert root w).val = none := by
  have hread : ∀ {β : Type} (field : Addr → β), (h.read field root).val = none := fun field => by
    simp [read,hdead]
  obtain ⟨w,hw⟩ := w
  cases w with
  | nil => exact absurd rfl hw
  | cons c w =>
    have hchild : (h.child true root c).val = none := by
      rw [child,Run.val_bind,hread]
      rfl
    change (h.child true root c >>= _).val = none
    rw [Run.val_bind,hchild]
    rfl

theorem magicInit_dead (htr : h.tr = some root) (hdead : h.live root = false) :
    h.magicInit.val = none := by
  have hinit : (h.trieInit .tr).Gives (root,h) [] := by
    have hslot : (h.readSlot .tr).Gives (some root) [] := congrArg Pure.pure htr
    exact hslot.bind (.pure _)
  obtain ⟨row,rows,hrows⟩ : ∃ row rows, magicIndex = row::rows := ⟨_,_,rfl⟩
  have hne : signature row ≠ [] := by
    have hall : ∀ row, row ∈ magicIndex → signature row ≠ [] := by decide
    exact hall row (by rw [hrows]; exact List.mem_cons_self)
  have htarget : target? (signature row) = some ⟨signature row,hne⟩ := dif_pos hne
  rw [magicInit,hinit,hrows]
  change (insertRows h (row::rows)).val = none
  rw [insertRows,htr,htarget]
  change (h.trieInsert root _ >>= _).val = none
  rw [Run.val_bind,trieInsert_dead hdead]
  rfl

theorem magicScan_gives (hm : h.Models root t) (htr : h.tr = some root) (content : List UInt8)
    (magicBuf : Ptr) : ∃ log, (h.magicScan content magicBuf).Gives
      (SSearcher.magicScan t content magicBuf).2 log ∧ Quiet log := by
  obtain ⟨r,log,hgives,hquiet,hr⟩ :=
    trieWalk_find true hm (slice (readHead content magicBuf) 0 16)
  have hverdict : (SSearcher.magicScan t content magicBuf).2 = r.isSome := hr.some.symm
  rw [hverdict,magicScan,htr]
  exact ⟨_,hgives.bind (.pure _),hquiet.append ⟨rfl,rfl⟩⟩

theorem magicScans_gives (hm : h.Models root t) (htr : h.tr = some root)
    (files : List (List UInt8 × Ptr)) :
    ∃ log, (h.magicScans files).Gives (SSearcher.magicScans t files) log ∧ Quiet log := by
  induction files with
  | nil => exact ⟨[],.pure _,rfl,rfl⟩
  | cons file files ih =>
    obtain ⟨log,hgives,hquiet⟩ := magicScan_gives hm htr file.1 file.2
    obtain ⟨log',hgives',hquiet'⟩ := ih
    have hsame : (SSearcher.magicScan t file.1 file.2).1 = t := trieWalk_reads true t _
    rw [SSearcher.magicScans,hsame]
    exact ⟨_,hgives.bind (hgives'.bind (.pure _)),hquiet.append (hquiet'.append ⟨rfl,rfl⟩)⟩

end NodeHeap

/-- What the dispatcher does with the trie of magic.c. magic_init, the calls of magic_scan
and magic_fini give the verdicts of the trie of the signatures and give back every block;
but `tr` still names the root, so a second magic_init would use it after its free. -/
theorem magic_lifetime (h : NodeHeap) (files : List (List UInt8 × Ptr)) (fuel : Nat)
    (htr : h.tr = none) (hst : h.Stocked (NodeHeap.rowsRoom magicIndex+1)) (hfuel : 8 < fuel) :
    ∃ tr h₁ h₂, magicInit none = some tr ∧ h.magicInit.val = some h₁ ∧
      (h₁.magicScans files).val = some (magicScans tr files) ∧
      (NodeHeap.magicFini fuel h₁).val = some h₂ ∧
      NodeHeap.Balanced h₁.children (h.magicInit.log ++ (h₁.magicScans files).log ++
        (NodeHeap.magicFini fuel h₁).log) ∧
      (∀ a, h₂.live a = h.live a) ∧ h₂.magicInit.val = none := by
  have hrows : ∀ row, row ∈ magicIndex → signature row ≠ [] ∧ (signature row).length ≤ 8 := by
    decide
  obtain ⟨root,h₀,log₀,hinit,hm₀,hst₀,hmade₀⟩ := NodeHeap.trieInit_made htr hst
  obtain ⟨tr,h₁,log₁,hfold,hinsert,hm,-,hgrown,hpaths⟩ := NodeHeap.insertRows_models (n := 0) hm₀
    hmade₀.tr (fun row hrow => (hrows row hrow).1) (by rw [Nat.zero_add]; exact hst₀)
  have hmade := hmade₀.grown hgrown
  obtain ⟨log₂,hscans,hquiet⟩ := NodeHeap.magicScans_gives hm hmade.tr files
  have hmade' := hmade.grown (.same rfl rfl rfl rfl hquiet)
  have hdepth : ∀ v, v ∈ tr.paths → v.length < fuel := by
    intro v hv
    rcases hpaths v hv with hv | ⟨row,hrow,hv⟩
    · rw [paths_trieInit.mp hv]
      exact Nat.lt_of_le_of_lt (Nat.zero_le 8) hfuel
    · exact Nat.lt_of_le_of_lt (hv.length_le.trans (hrows row hrow).2) hfuel
  obtain ⟨h₂,log₃,hdestroy,hbal,hlive,htr₂⟩ := hmade'.destroyed hm (hst.less (Nat.zero_le _)) hdepth
  have hmagic : h.magicInit.Gives h₁ (log₀++log₁) := hinit.bind hinsert
  have hfini : (NodeHeap.magicFini fuel h₁).Gives h₂ log₃ := by
    rw [NodeHeap.magicFini,hmade.tr]
    exact hdestroy
  refine ⟨tr,h₁,h₂,hfold,by rw [hmagic],by rw [hscans],by rw [hfini],?_,hlive,?_⟩
  · rw [hmagic,hscans,hfini]
    exact hbal
  · have hroot : root ∈ h.supply := by
      rw [hmade.supply]
      exact List.mem_append_left _ ((hmade.nodes root).mp ⟨[],rfl⟩)
    exact NodeHeap.magicInit_dead htr₂ ((hlive root).trans (hst.fresh root hroot))

theorem stocked_bareHeap : (bareHeap 200).Stocked (NodeHeap.rowsRoom magicIndex+1) :=
  ⟨List.nodup_range,fun _ _ => rfl,by rw [bareHeap,List.length_range]; decide⟩

theorem magic_lifetime_pdf : ∃ h₁ h₂, (bareHeap 200).magicInit.val = some h₁ ∧
    (h₁.magicScans [([0x25,0x50,0x44,0x46,0x2D],fun _ => 0)]).val = some [true] ∧
    (NodeHeap.magicFini 9 h₁).val = some h₂ ∧ h₂.magicInit.val = none := by
  obtain ⟨tr,h₁,h₂,htr,hinit,hscans,hfini,-,-,hagain⟩ := magic_lifetime (bareHeap 200)
    [([0x25,0x50,0x44,0x46,0x2D],fun _ => 0)] 9 rfl stocked_bareHeap (by decide)
  have hverdict : (magicScan tr [0x25,0x50,0x44,0x46,0x2D] fun _ => 0).2 = true := by
    obtain ⟨tr',htr',hwords⟩ := magicInit_words
    obtain rfl : tr = tr' := Option.some.inj (htr.symm.trans htr')
    exact (magicScan_verdict hwords _ _).mpr (.inl (by decide))
  rw [magicScans,hverdict] at hscans
  exact ⟨h₁,h₂,hinit,hscans,hfini,hagain⟩

end SSearcher
