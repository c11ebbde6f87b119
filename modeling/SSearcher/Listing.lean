import SSearcher.Grep
import SSearcher.Ending
set_option autoImplicit false

namespace SSearcher
open Runs Memory Matching

def Entry.Contains (opt : Options) (e : Entry) : Prop :=
  ∃ q, q+opt.searchPatlen ≤ e.bytes.length ∧
    Occurs opt.searchPattern (ofList e.bytes) opt.searchPatlen q

namespace Scan
variable {sc : Scan}

end Scan

variable {W : Type} {opt : Options} {hopt : opt.Usable} {tr : Trie} {entries : List Entry}
  {g : Sys W} {i : Nat} {e : Entry} {sc : Scan}

section
variable [Fintype W] [DecidableEq W]

theorem Reachable.printed_chosen (h : Reachable opt tr entries g)
    (hall : AllFit opt hopt tr entries) (hp : i ∈ g.shared.printed) :
    Chosen tr entries i ∧ matched opt hopt entries i = true := by
  obtain ⟨hsent,hmatched⟩ := (h.tidy (h.fit hall)).only h.inv hp
  exact ⟨h.selects.only i hsent,hmatched⟩

theorem Reachable.sure_printed [Nonempty W] (h : Reachable opt tr entries g)
    (hall : AllFit opt hopt tr entries) (hended : g.Ended) (hsure : Sure tr entries i)
    (hmatched : matched opt hopt entries i = true) : i ∈ g.shared.printed := by
  have hi := h.inv
  have ht : g.Tidy opt hopt entries := h.tidy (h.fit hall)
  have hpipe := (hi.left (Classical.arbitrary W) (by rw [hended.2]; trivial)).2
  have hmem : i ∈ g.past.filter (matched opt hopt entries · = true) := by
    refine Multiset.mem_filter.mpr ⟨Multiset.mem_add.mpr (.inr ?_),hmatched⟩
    rw [hi.finished hended.2 hpipe]
    exact h.selects.all i (by rw [hended.1]; trivial) hsure
  rw [← ht.printed] at hmem
  exact hmem

end

theorem no_stub_lineA (n : Nat) :
    ∀ e, e ∈ List.replicate n (entryOf [97,10] (by decide)) → ¬ Stub e.bytes := by
  intro e he
  rw [List.eq_of_mem_replicate he]
  unfold Stub
  decide

theorem printed_lineA [Fintype W] [DecidableEq W] [Nonempty W] {n : Nat}
    (htr : magicInit none = some tr)
    (h : Reachable optionsA tr (List.replicate n (entryOf [97,10] (by decide))) g)
    (hended : g.Ended) : i ∈ g.shared.printed ↔ i < n := by
  have hall := allFit_lineA tr n
  constructor
  · intro hp
    obtain ⟨⟨e,he,-⟩,-⟩ := h.printed_chosen hall hp
    have hlt := (List.getElem?_eq_some_iff.mp he).1
    rwa [List.length_replicate] at hlt
  · intro hi
    have he := List.getElem?_replicate_of_lt (a := entryOf [97,10] (by decide)) hi
    have hstub := no_stub_lineA n _ (List.mem_of_getElem? he)
    refine h.sure_printed hall hended (sure_of_no_magic (words_of_magicInit htr) he (by decide) rfl
      (by decide) hstub) ((matched_eq (scanOf_lineA hi)).mpr ?_)
    rw [scanLineA_found]
    decide

end SSearcher
