import SSearcher.Tidy
set_option autoImplicit false

namespace SSearcher
open Function Memory

variable {opt : Options} {hopt : opt.Usable} {entries : List Entry} {W : Type}

section Runs
variable [DecidableEq W] {g : Sys W} {tr : Trie} {e : Entry} {f : MappedFile} {magicBuf : Ptr}

theorem Options.kmp_val (hopt : opt.Usable) :
    (kmpPrepare noKmp opt.searchPattern opt.searchPatlen).val = some opt.kmp := by
  obtain ⟨k,hv,-⟩ := kmpPrepare_spec noKmp opt.searchPattern hopt.1 hopt.2
  rw [Options.kmp,hv]
  rfl

theorem reachable_mapped (hopt : opt.Usable) (hskip : e.skipped = false) (hopen : e.opens = true)
    (htext : (magicScan tr e.bytes magicBuf).2 = false) (hf : mapFile e = some f) :
    ∃ (g : Sys (Fin 2)) (b : Buffer), Reachable opt tr [e] g ∧ g.sent = [0] ∧
      g.worker 0 = ⟨.searching ⟨3,e.ftsPath,0⟩ f 0 1 0,b,opt.kmp⟩ ∧ b.Empty ∧
      g.shared = ⟨⟨0,0⟩,[],[]⟩ := by
  obtain ⟨g,hsent,hs,hpipe,hfd,hmtx,hworker,hshared⟩ := reachable_sent opt hskip hopen htext
  obtain ⟨b,hb⟩ : ∃ b, (initBuffer (g.worker 0).buffer).val = some b := ⟨_,rfl⟩
  have hkmp : (g.worker 0).kmp = noKmp := by rw [hworker]; rfl
  have hstart := hsent.tail (.work (w := 0) (.start (by rw [hworker]; rfl) hb
    (hkmp ▸ opt.kmp_val hopt)))
  have hlock := hstart.tail (.lock (w := 0) rfl hmtx)
  have hreceive := hlock.tail (.receive (w := 0) rfl hpipe)
  have hunlock := hreceive.tail (.unlock (w := 0) rfl)
  have hfile : g.file [e] 3 = some e := by rw [Sys.file,hfd]; rfl
  have hmap := hunlock.tail (.work (w := 0) (.map rfl hfile hf))
  exact ⟨_,b,hmap,hs,rfl,initBuffer_empty hb,hshared⟩

theorem Reachable.searched {w : W} {x : Worker} {fi : FileInfo}
    {startpos linum lastlinum : Nat} {l : List (Nat × Nat)}
    (h : Reachable opt tr entries g) (hw : g.worker w = x)
    (hpc : x.pc = .searching fi f startpos linum lastlinum) (hkmp : x.kmp = opt.kmp)
    (hshort : (opt.scan hopt f).Short)
    (hat : ∀ st, (opt.scan hopt f).At l ⟨startpos,linum,lastlinum,st,x.buffer⟩) :
    ∃ (g' : Sys W) (b : Buffer), Reachable opt tr entries g' ∧
      g'.worker w = ⟨.printing fi,b,opt.kmp⟩ ∧
      Written ((opt.scan hopt f).pieces (opt.scan hopt f).found)
        ((opt.scan hopt f).needs (opt.scan hopt f).found) b ∧
      g'.sent = g.sent ∧ g'.shared.output = g.shared.output ∧
      g'.shared.printed = g.shared.printed := by
  have hsize := hshort.size
  generalize hn : (opt.scan hopt f).size-startpos = n
  induction n using Nat.strong_induction_on generalizing g x startpos linum lastlinum l with
  | _ n ih =>
    obtain ⟨y,hy,hnext⟩ := Scan.step_total (hat g.shared.statics).inv (by omega)
    have hv : (matchStep opt x.kmp f.fb f.size
        ⟨startpos,linum,lastlinum,g.shared.statics,x.buffer⟩).val = some y := by
      rw [hkmp]
      exact hy
    subst hw
    cases y with
    | inl t =>
      obtain ⟨hinv,hlt⟩ := hnext t rfl
      obtain ⟨r,hat'⟩ := (hat g.shared.statics).next hshort hy
      obtain ⟨g',b,hr,hw',hwritten,hs,ho,hp⟩ := ih _ (by simp only at hlt; omega)
        (h.tail (.work (.found hpc hv))) (update_self ..) rfl hkmp
        (fun st => hat'.statics hshort st) rfl
      exact ⟨g',b,hr,hw',hwritten,hs,ho,hp⟩
    | inr t =>
      obtain ⟨hl,-⟩ := (hat g.shared.statics).ends hy
      refine ⟨_,_,h.tail (.work (.notFound hpc hv)),?_,hl ▸ (hat g.shared.statics).written,rfl,rfl,
        rfl⟩
      change update g.worker w _ w = _
      rw [update_self,← hkmp]

theorem reachable_printed (hopt : opt.Usable) (hskip : e.skipped = false) (hopen : e.opens = true)
    (htext : (magicScan tr e.bytes magicBuf).2 = false) (hf : mapFile e = some f)
    (hshort : (opt.scan hopt f).Short) (hfound : (opt.scan hopt f).found ≠ []) :
    ∃ b, Written ((opt.scan hopt f).pieces (opt.scan hopt f).found)
        ((opt.scan hopt f).needs (opt.scan hopt f).found) b ∧
      ∀ s, printResult opt ⟨3,e.ftsPath,0⟩ b = some s → ∃ g : Sys (Fin 2),
        Reachable opt tr [e] g ∧ g.sent = [0] ∧ g.shared.output = s ∧ g.shared.printed = [0] := by
  obtain ⟨g,b,hr,hs,hw,hb,hshared⟩ := reachable_mapped hopt hskip hopen htext hf
  obtain ⟨g',b',hr',hw',hwritten,hs',ho,hp⟩ := hr.searched hw rfl rfl hshort
    fun st => Scan.at_init hshort st hb
  have hoff : b'.off ≠ 0 := by
    rw [hwritten.off]
    exact fun hz => hfound (Scan.pieces_eq_nil.mp (List.eq_nil_of_length_eq_zero hz))
  refine ⟨b',hwritten,fun s hprint => ?_⟩
  have hprint' : printResult opt ⟨3,e.ftsPath,0⟩ (g'.worker 0).buffer = some s := by
    rw [hw']
    exact hprint
  have hlast := hr'.tail (.work (w := 0) (.print (by rw [hw']) (by rw [hw']; exact hoff) hprint'))
  refine ⟨_,hlast,hs'.trans hs,?_,?_⟩
  · change g'.shared.output ++ s = s
    rw [ho,hshared,List.nil_append]
  · change g'.shared.printed ++ [0] = [0]
    rw [hp,hshared,List.nil_append]

theorem text_of_not_magic {content w : List UInt8} {magicBuf : Ptr}
    (htr : tr.words = signatures magicIndex)
    (hw : w <+: content) (hno : ∀ row, row ∈ magicIndex → ¬ w <+: signature row)
    (hmagic : ¬ IsMagic content) : (magicScan tr content magicBuf).2 = false := by
  rw [Bool.eq_false_iff]
  intro h
  rcases (magicScan_verdict htr content magicBuf).mp h with h | ⟨row,hrow,-,heq⟩
  · exact hmagic h
  · exact hno row hrow (hw.trans ⟨_,heq.symm⟩)

end Runs

section
variable [Fintype W] {g : Sys W}

theorem Sys.Tidy.only (ht : g.Tidy opt hopt entries) (hi : g.Inv) {i : Nat}
    (hp : i ∈ g.shared.printed) : i ∈ g.sent ∧ matched opt hopt entries i = true := by
  have hmem : i ∈ g.past.filter (matched opt hopt entries · = true) := ht.printed ▸ hp
  obtain ⟨hpast,hmatched⟩ := Multiset.mem_filter.mp hmem
  have hplace := Multiset.mem_of_le g.past_le hpast
  rw [hi.placed] at hplace
  exact ⟨hplace,hmatched⟩

theorem Sys.Tidy.once (ht : g.Tidy opt hopt entries) (hi : g.Inv) : g.shared.printed.Nodup := by
  have hplaces : g.places.Nodup := hi.placed ▸ Multiset.coe_nodup.mpr hi.nodup
  have hfilter := (Multiset.nodup_of_le g.past_le hplaces).filter
    (matched opt hopt entries · = true)
  rw [← ht.printed] at hfilter
  exact Multiset.coe_nodup.mp hfilter

end

def optionsA : Options := ⟨ofList [97],1,false⟩

theorem optionsA_usable : optionsA.Usable := ⟨by decide,by decide⟩

def entryOf (bytes : List UInt8) (h : bytes.length < 2^63) : Entry := ⟨[97],[97],true,true,bytes,h⟩

def scanLineA : Scan := optionsA.scan optionsA_usable ⟨[97,10],by decide,by decide⟩

theorem scanLineA_found : scanLineA.found = [(0,1)] := by decide +kernel

theorem scanLineA_short : scanLineA.Short := ⟨by decide,by rw [scanLineA_found]; decide⟩

theorem scanLineA_printable : scanLineA.Printable := by
  refine ⟨?_,?_⟩
  · rw [scanLineA_found]
    simp only [List.mem_singleton,forall_eq]
    intro i _ hi
    change i < 1 at hi
    obtain rfl : i = 0 := by omega
    decide
  · rw [scanLineA_found]
    rintro ⟨-,k,hk,-⟩
    have hlen : (scanLineA.pieces [(0,1)]).length < defaultSize := by decide +kernel
    have hpos : 0 < 2^k := Nat.two_pow_pos k
    have hle := Nat.le_mul_of_pos_right defaultSize hpos
    omega

theorem reachable_lineA : ∃ tr, magicInit none = some tr ∧ ∃ g : Sys (Fin 2),
    Reachable optionsA tr [entryOf [97,10] (by decide)] g ∧ g.shared.printed = [0] := by
  obtain ⟨tr,hinit,htr⟩ := magicInit_words
  have htext : (magicScan tr [97,10] fun _ => 0).2 = false :=
    text_of_not_magic htr (List.prefix_refl _) (by decide) (by decide)
  have hfound : scanLineA.found ≠ [] := by rw [scanLineA_found]; decide
  obtain ⟨b,hb,hprints⟩ := reachable_printed (e := entryOf [97,10] (by decide)) optionsA_usable
    (by decide) rfl htext (f := ⟨[97,10],by decide,by decide⟩) (dif_pos (by decide)) scanLineA_short
    hfound
  obtain ⟨g,hr,-,-,hp⟩ := hprints _
    ((scanLineA_short.printResult_iff ⟨3,[97],0⟩ hb).mpr (.inr scanLineA_printable))
  exact ⟨tr,hinit,g,hr,hp⟩

end SSearcher
