import SSearcher.Handover
set_option autoImplicit false

namespace SSearcher

/-- A file that the dispatcher may hand over. -/
def Chosen (tr : Trie) (entries : List Entry) (i : Nat) : Prop :=
  ∃ e, entries[i]? = some e ∧ e.skipped = false ∧ e.opens = true ∧
    ∃ magicBuf, (magicScan tr e.bytes magicBuf).2 = false

/-- A file that it hands over whatever the stack holds. -/
def Sure (tr : Trie) (entries : List Entry) (i : Nat) : Prop :=
  ∃ e, entries[i]? = some e ∧ e.skipped = false ∧ e.opens = true ∧
    ∀ magicBuf, (magicScan tr e.bytes magicBuf).2 = false

def Dispatcher.Knows (tr : Trie) (entries : List Entry) : Dispatcher → Prop
  | .opening i => ∃ e, entries[i]? = some e ∧ e.skipped = false
  | .scanning i _ => ∃ e, entries[i]? = some e ∧ e.skipped = false ∧ e.opens = true
  | .closing i _ => ¬ Sure tr entries i
  | .sending fi => Chosen tr entries fi.entry
  | _ => True

/-- What has been sent, among the entries behind the dispatcher. -/
structure Sys.Selects {W : Type} (tr : Trie) (entries : List Entry) (g : Sys W) : Prop where
  knows : g.dispatcher.Knows tr entries
  only : ∀ i, i ∈ g.sent → Chosen tr entries i
  all : ∀ i, g.dispatcher.Sent i → Sure tr entries i → i ∈ g.sent

variable {W : Type} {opt : Options} {tr : Trie} {entries : List Entry} {g g' : Sys W}

theorem Sys.selects_init : (initialSys W).Selects tr entries where
  knows := trivial
  only := fun _ hi => (List.not_mem_nil hi).elim
  all := fun i hi => (Nat.not_lt_zero i hi).elim

theorem all_next {i : Nat} (hno : ¬ Sure tr entries i)
    (h : ∀ j, j < i → Sure tr entries j → j ∈ g.sent) (j : Nat) (hj : j < i+1)
    (hsure : Sure tr entries j) : j ∈ g.sent := by
  rcases Nat.lt_succ_iff_lt_or_eq.mp hj with hj | rfl
  · exact h j hj hsure
  · exact absurd hsure hno

theorem Sys.Inv.file_eq [Fintype W] (hi : g.Inv) {i fd : Nat} {e : Entry}
    (hheld : (fd,i) ∈ g.dispatcher.held) (he : g.file entries fd = some e) :
    entries[i]? = some e := by
  have hcur := hi.sound.current (fd,i)
    (Multiset.mem_add.mpr (.inl (Multiset.mem_add.mpr (.inl hheld))))
  change g.fds fd = some i at hcur
  rw [Sys.file,hcur] at he
  exact he

theorem Sys.Inv.entry_scanned [Fintype W] (hi : g.Inv) {i fd : Nat} {e : Entry}
    (hd : g.dispatcher = .scanning i fd) (he : g.file entries fd = some e) :
    entries[i]? = some e :=
  hi.file_eq (by rw [hd]; exact Multiset.mem_singleton_self _) he

/-- Why the dispatcher does not send an entry. -/
theorem not_sure {i : Nat} {e : Entry} (he : entries[i]? = some e)
    (h : e.skipped = true ∨ e.opens = false ∨
      ∃ magicBuf, (magicScan tr e.bytes magicBuf).2 = true) : ¬ Sure tr entries i := by
  rintro ⟨e',he',hskip,hopen,hscan⟩
  obtain rfl : e = e' := Option.some.inj (he.symm.trans he')
  rcases h with h | h | ⟨magicBuf,h⟩
  · rw [hskip] at h
    cases h
  · rw [hopen] at h
    cases h
  · rw [hscan magicBuf] at h
    cases h

theorem Sys.Selects.at (hs : g.Selects tr entries) {d : Dispatcher} (hd : g.dispatcher = d) :
    d.Knows tr entries ∧ ∀ i, d.Sent i → Sure tr entries i → i ∈ g.sent :=
  hd ▸ ⟨hs.knows,hs.all⟩

theorem Sys.Selects.past_end (hs : g.Selects tr entries) {i : Nat} (hd : g.dispatcher = .next i)
    (hnone : entries[i]? = none) (j : Nat) (hsure : Sure tr entries j) : j ∈ g.sent := by
  obtain ⟨-,hall⟩ := hs.at hd
  obtain ⟨e,he,-⟩ := id hsure
  have hlen := List.getElem?_eq_none_iff.mp hnone
  have hlt := (List.getElem?_eq_some_iff.mp he).1
  exact hall j (Nat.lt_of_lt_of_le hlt hlen) hsure

theorem Sys.Selects.sent (hs : g.Selects tr entries) {fi : FileInfo}
    (hd : g.dispatcher = .sending fi) :
    (∀ i, i ∈ fi.entry :: g.sent → Chosen tr entries i) ∧
      ∀ i, i < fi.entry+1 → Sure tr entries i → i ∈ fi.entry :: g.sent := by
  obtain ⟨hknows,hall⟩ := hs.at hd
  refine ⟨fun i hmem => ?_,fun i hle hsure => ?_⟩
  · rcases List.mem_cons.mp hmem with rfl | hmem
    · exact hknows
    · exact hs.only i hmem
  · rcases Nat.lt_succ_iff_lt_or_eq.mp hle with hlt | rfl
    · exact List.mem_cons_of_mem _ (hall i hlt hsure)
    · exact List.mem_cons_self

theorem Sys.Selects.step [Fintype W] [DecidableEq W] (hs : g.Selects tr entries) (hi : g.Inv)
    (h : Step opt tr entries g g') : g'.Selects tr entries := by
  cases h with
  | endOfTree hd hnone => exact ⟨trivial,hs.only,fun j _ hsure => hs.past_end hd hnone j hsure⟩
  | skip hd he hskip =>
    exact ⟨trivial,hs.only,all_next (not_sure he (.inl hskip)) (hs.at hd).2⟩
  | @visit i e hd he hskip => exact ⟨⟨e,he,hskip⟩,hs.only,(hs.at hd).2⟩
  | openFails hd he hopen =>
    exact ⟨trivial,hs.only,all_next (not_sure he (.inr (.inl hopen))) (hs.at hd).2⟩
  | @opens i fd e hd he hopen _ =>
    obtain ⟨⟨e',he',hskip⟩,hall⟩ := hs.at hd
    obtain rfl : e = e' := Option.some.inj (he.symm.trans he')
    exact ⟨⟨e,he,hskip,hopen⟩,hs.only,hall⟩
  | @binary i fd e magicBuf hd he hscan =>
    have hentry := hi.entry_scanned hd he
    exact ⟨not_sure hentry (.inr (.inr ⟨magicBuf,hscan⟩)),hs.only,(hs.at hd).2⟩
  | @text i fd e e' magicBuf hd he hscan he' =>
    obtain ⟨⟨e₁,he₁,hskip,hopen⟩,hall⟩ := hs.at hd
    have hentry := hi.entry_scanned hd he
    obtain rfl : e = e₁ := Option.some.inj (hentry.symm.trans he₁)
    exact ⟨⟨e,hentry,hskip,hopen,magicBuf,hscan⟩,hs.only,hall⟩
  | closeBinary hd =>
    obtain ⟨hknows,hall⟩ := hs.at hd
    exact ⟨trivial,hs.only,all_next hknows hall⟩
  | send hd =>
    obtain ⟨honly,hall⟩ := hs.sent hd
    exact ⟨trivial,honly,hall⟩
  | closeEnd hd => exact ⟨trivial,hs.only,(hs.at hd).2⟩
  | _ => exact ⟨hs.knows,hs.only,hs.all⟩

theorem Reachable.selects [Fintype W] [DecidableEq W] (h : Reachable opt tr entries g) :
    g.Selects tr entries := by
  induction h with
  | refl => exact Sys.selects_init
  | tail hr hstep ih => exact ih.step (Reachable.inv hr) hstep

/-- A signature goes on behind the end of the file. -/
def Stub (content : List UInt8) : Prop :=
  ∃ row, row ∈ magicIndex ∧ content <+: signature row ∧ content ≠ signature row

theorem Completed.stub {content : List UInt8} {magicBuf : Ptr}
    (h : Completed content magicBuf) : Stub content := by
  obtain ⟨row,hrow,hlen,heq⟩ := h
  refine ⟨row,hrow,⟨_,heq.symm⟩,fun hsame => ?_⟩
  rw [hsame] at hlen
  exact Nat.lt_irrefl _ hlen

theorem words_of_magicInit (htr : magicInit none = some tr) :
    tr.words = signatures magicIndex := by
  obtain ⟨tr',hinit,hwords⟩ := magicInit_words
  rw [htr,Option.some.injEq] at hinit
  exact hinit ▸ hwords

theorem Chosen.no_magic {i : Nat} (hwords : tr.words = signatures magicIndex)
    (h : Chosen tr entries i) : ∃ e, entries[i]? = some e ∧ e.skipped = false ∧
      e.opens = true ∧ ¬ IsMagic e.bytes := by
  obtain ⟨e,he,hskip,hopen,magicBuf,hscan⟩ := h
  refine ⟨e,he,hskip,hopen,fun hmagic => ?_⟩
  have hyes := (magicScan_verdict hwords e.bytes magicBuf).mpr (.inl hmagic)
  rw [hscan] at hyes
  cases hyes

theorem sure_of_no_magic {i : Nat} {e : Entry} (hwords : tr.words = signatures magicIndex)
    (he : entries[i]? = some e) (hskip : e.skipped = false) (hopen : e.opens = true)
    (hmagic : ¬ IsMagic e.bytes) (hstub : ¬ Stub e.bytes) : Sure tr entries i := by
  refine ⟨e,he,hskip,hopen,fun magicBuf => ?_⟩
  rw [Bool.eq_false_iff,Ne,magicScan_verdict hwords e.bytes magicBuf]
  rintro (h | h)
  · exact hmagic h
  · exact hstub h.stub

/-- In every order of the steps, only files are handed over that are regular, are not
named .git, .svn or .hg, can be opened and do not begin with a signature; and when the
dispatcher has ended all of them were, up to those that are a proper part of a signature. -/
theorem dispatched [Fintype W] [DecidableEq W] (htr : magicInit none = some tr)
    (h : Reachable opt tr entries g) :
    (∀ i, i ∈ g.sent → ∃ e, entries[i]? = some e ∧ e.skipped = false ∧ e.opens = true ∧
      ¬ IsMagic e.bytes) ∧
    (g.dispatcher = .ended → ∀ i e, entries[i]? = some e → e.skipped = false →
      e.opens = true → ¬ IsMagic e.bytes → ¬ Stub e.bytes → i ∈ g.sent) := by
  have hwords := words_of_magicInit htr
  have hs := h.selects
  refine ⟨fun i hi => (hs.only i hi).no_magic hwords,
    fun hended i e he hskip hopen hmagic hstub => ?_⟩
  exact hs.all i (by rw [hended]; trivial) (sure_of_no_magic hwords he hskip hopen hmagic hstub)

theorem dispatched_line : ∃ tr, magicInit none = some tr ∧ ∃ g : Sys (Fin 2),
    Reachable ⟨ofList [97],1,false⟩ tr [⟨[97],[97],true,true,[97,10],by decide⟩] g ∧
    g.dispatcher = .ended ∧ 0 ∈ g.sent := by
  obtain ⟨tr,hinit,hwords⟩ := magicInit_words
  have hmagic : ¬ IsMagic [97,10] := by decide
  have hstub : ¬ Stub [97,10] := by unfold Stub; decide
  have hscan : (magicScan tr [97,10] fun _ => 0).2 = false := by
    rw [Bool.eq_false_iff,Ne,magicScan_verdict hwords]
    rintro (h | h)
    · exact hmagic h
    · exact hstub h.stub
  have hvisit : Reachable ⟨ofList [97],1,false⟩ tr [⟨[97],[97],true,true,[97,10],by decide⟩]
      { initialSys (Fin 2) with dispatcher := .opening 0 } :=
    Relation.ReflTransGen.refl.tail (.visit rfl rfl (by decide))
  have hopens := hvisit.tail (@Step.opens _ _ _ tr _ _ 0 3 _ rfl rfl rfl rfl)
  have htext := hopens.tail (.text (fun _ => 0) rfl rfl hscan rfl)
  have hsend := htext.tail (.send rfl)
  have hend := (hsend.tail (.endOfTree rfl rfl)).tail (.closeEnd rfl)
  exact ⟨tr,hinit,_,hend,rfl,(dispatched hinit hend).2 rfl 0 _ rfl (by decide) rfl hmagic hstub⟩

end SSearcher
