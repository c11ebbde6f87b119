import SSearcher.Simulation
import SSearcher.Output
set_option autoImplicit false

/-! The statics of worker_writebuffer, which the workers change without a lock. What they
hold does not matter. -/
namespace SSearcher
open Function Relation Simulation

variable {W : Type} {opt : Options} {hopt : opt.Usable} {tr : Trie} {entries : List Entry}

def Sys.withStatics (g : Sys W) (statics : Statics) : Sys W :=
  { g with shared := { g.shared with statics } }

/-- Between two steps the statics may take any values. -/
def RaceStep [DecidableEq W] (opt : Options) (tr : Trie) (entries : List Entry) (g g' : Sys W) :
    Prop := Step opt tr entries g g' ∨ ∃ st, g' = g.withStatics st

/-- A buffer with a block, and a search in which no line number has come round to 0. -/
def Pc.Counts (opt : Options) (hopt : opt.Usable) : Pc → Buffer → Prop
  | .starting,_ | .resetting _,_ | .ended,_ => True
  | .searching _ f startpos linum lastlinum,b => (opt.scan hopt f).size < 2^31 ∧
      ∀ st, (opt.scan hopt f).SmallInv ⟨startpos,linum,lastlinum,st,b⟩
  | _,b => 0 < b.cap

structure Worker.Counts (opt : Options) (hopt : opt.Usable) (x : Worker) : Prop where
  table : x.pc.Table opt x.kmp
  buffer : x.pc.Counts opt hopt x.buffer

theorem Worker.Counts.at {x : Worker} {pc : Pc} (h : x.Counts opt hopt) (hpc : x.pc = pc) :
    (⟨pc,x.buffer,x.kmp⟩ : Worker).Counts opt hopt := by
  subst hpc
  exact h

theorem Worker.Counts.goes {x : Worker} {pc : Pc} (h : x.Counts opt hopt)
    (htable : pc.Table opt = x.pc.Table opt) (hbuffer : pc.Counts opt hopt = x.pc.Counts opt hopt) :
    ({ x with pc } : Worker).Counts opt hopt := ⟨htable ▸ h.table,hbuffer ▸ h.buffer⟩

theorem Work.counts {file : Nat → Option Entry} {x y : Worker} {s s' : Shared}
    (h : Work opt file (x,s) (y,s')) (hx : x.Counts opt hopt)
    (hsmall : ∀ fd e, file fd = some e → e.bytes.length < 2^31) : y.Counts opt hopt := by
  cases h with
  | start hpc hb hk =>
    refine ⟨?_,(initBuffer_empty hb).cap_pos⟩
    have hkmp : x.kmp = noKmp := (hx.at hpc).table
    change _ = opt.kmp
    rw [Options.kmp,← hkmp,hk]
    rfl
  | mapEmpty hpc _ _ => exact ⟨(hx.at hpc).table,(hx.at hpc).buffer⟩
  | @map _ _ fi e f hpc he hf =>
    have hcap : 0 < x.buffer.cap := (hx.at hpc).buffer
    refine ⟨(hx.at hpc).table,?_,fun st => Scan.smallInv_init st hcap⟩
    have hlt := hsmall fi.fd e he
    rw [mapFile] at hf
    split at hf
    · cases hf
      exact hlt
    · cases hf
  | @found _ _ fi f startpos linum lastlinum t hpc hv =>
    obtain ⟨hsize,hinv⟩ := (hx.at hpc).buffer
    have hkmp : x.kmp = opt.kmp := (hx.at hpc).table
    rw [hkmp] at hv
    have hnext : (opt.scan hopt f).SmallInv t :=
      Scan.smallInv_step hsize _ t (hinv s.statics) hv
    exact ⟨(hx.at hpc).table,hsize,fun st => ⟨⟨hnext.startpos,hnext.lastlinum,hnext.cap⟩,
      hnext.linum_pos,hnext.linum_le⟩⟩
  | notFound hpc _ =>
    obtain ⟨-,hinv⟩ := (hx.at hpc).buffer
    exact ⟨(hx.at hpc).table,(hinv s.statics).cap⟩
  | print hpc _ _ | nothing hpc _ => exact ⟨(hx.at hpc).table,trivial⟩
  | reset hpc hb => exact ⟨(hx.at hpc).table,(initBuffer_empty hb).cap_pos⟩
  | leave hpc => exact ⟨trivial,trivial⟩

theorem workerWritebuffer_statics (opt : Options) (st st' : Statics) (b : Buffer) (fb : Ptr)
    (pos : Nat) {linum lastlinum : Nat} (hne : linum ≠ lastlinum) :
    workerWritebuffer opt st b fb pos linum lastlinum =
      workerWritebuffer opt st' b fb pos linum lastlinum := by
  simp only [workerWritebuffer,if_pos hne]

theorem Scan.step_statics {sc : Scan} {s t : ScanLoop} (h : sc.SmallInv s)
    (hsmall : sc.size < 2^31) (hv : (sc.step s).val = some (.inl t)) (st : Statics) :
    (sc.step { s with statics := st }).val = some (.inl t) := by
  rcases Scan.step_cases hv with ⟨_,-,-,he⟩ | ⟨r,st',b,hit,hw,he⟩
  · cases he
  have hne : r.linum ≠ s.lastlinum := by
    have hpos := (hit.linum h hsmall).1
    rw [h.lastlinum]
    omega
  have hit' : sc.Hit { s with statics := st } r := hit.congr rfl rfl
  rw [Scan.step_of_hit hit,workerWritebuffer_statics sc.opt s.statics st _ _ _ hne] at hv
  rw [Scan.step_of_hit hit']
  exact hv

theorem Scan.ends_statics {sc : Scan} {s t : ScanLoop} (hv : (sc.step s).val = some (.inr t))
    (st : Statics) : ∃ t', (sc.step { s with statics := st }).val = some (.inr t') := by
  rcases Scan.step_cases hv with ⟨r,hr,hf,-⟩ | ⟨_,_,_,-,-,he⟩
  · have hr' : (scanMatch sc.kmp sc.fb sc.size { s with statics := st }).val = some r := hr
    refine ⟨{ s with linum := r.linum,statics := st },?_⟩
    simp [Scan.step,matchStep,hr',hf]
  · cases he

theorem Work.statics {file : Nat → Option Entry} {x y : Worker} {s s' : Shared} {st : Statics}
    (h : Work opt file (x,{ s with statics := st }) (y,s')) (hx : x.Counts opt hopt) :
    ∃ t st', s' = { t with statics := st' } ∧ Work opt file (x,s) (y,t) := by
  cases h with
  | start hpc hb hk => exact ⟨s,st,rfl,.start hpc hb hk⟩
  | mapEmpty hpc he hf => exact ⟨s,st,rfl,.mapEmpty hpc he hf⟩
  | map hpc he hf => exact ⟨s,st,rfl,.map hpc he hf⟩
  | @found _ _ fi f startpos linum lastlinum t hpc hv =>
    obtain ⟨hsize,hinv⟩ := (hx.at hpc).buffer
    have hkmp : x.kmp = opt.kmp := (hx.at hpc).table
    have hstep : ((opt.scan hopt f).step ⟨startpos,linum,lastlinum,s.statics,x.buffer⟩).val =
        some (.inl t) := by
      refine Scan.step_statics (hinv st) hsize ?_ s.statics
      rw [hkmp] at hv
      exact hv
    refine ⟨{ s with statics := t.statics },t.statics,rfl,.found hpc ?_⟩
    rw [hkmp]
    exact hstep
  | @notFound _ _ fi f startpos linum lastlinum t hpc hv =>
    have hkmp : x.kmp = opt.kmp := (hx.at hpc).table
    have hstep : ((opt.scan hopt f).step ⟨startpos,linum,lastlinum,st,x.buffer⟩).val =
        some (.inr t) := by
      rw [hkmp] at hv
      exact hv
    obtain ⟨t',ht'⟩ := Scan.ends_statics hstep s.statics
    refine ⟨s,st,rfl,.notFound (s := t') hpc ?_⟩
    rw [hkmp]
    exact ht'
  | @print _ _ fi out hpc hoff hs =>
    exact ⟨{ s with output := s.output ++ out,printed := s.printed ++ [fi.entry] },st,rfl,
      .print hpc hoff hs⟩
  | nothing hpc hoff => exact ⟨s,st,rfl,.nothing hpc hoff⟩
  | reset hpc hb => exact ⟨s,st,rfl,.reset hpc hb⟩
  | leave hpc => exact ⟨s,st,rfl,.leave hpc⟩

section
variable [DecidableEq W] {g g' : Sys W} {st : Statics}

theorem counts_update {w : W} {x : Worker} (hx : x.Counts opt hopt)
    (h : ∀ v, (g.worker v).Counts opt hopt) (v : W) :
    (update g.worker w x v).Counts opt hopt := by
  rcases eq_or_ne v w with rfl | hne
  · rwa [update_self]
  · rw [update_of_ne hne]
    exact h v

theorem counts_setPc {w : W} {pc : Pc} (h : ∀ v, (g.worker v).Counts opt hopt)
    (htable : pc.Table opt = (g.worker w).pc.Table opt)
    (hbuffer : pc.Counts opt hopt = (g.worker w).pc.Counts opt hopt) (v : W) :
    ((g.setPc w pc).worker v).Counts opt hopt := counts_update ((h w).goes htable hbuffer) h v

omit [DecidableEq W] in
theorem small_file (hsmall : ∀ e, e ∈ entries → e.bytes.length < 2^31) {fd : Nat} {e : Entry}
    (he : g.file entries fd = some e) : e.bytes.length < 2^31 := by
  obtain ⟨i,-,hi⟩ := Option.bind_eq_some_iff.mp he
  exact hsmall e (List.mem_of_getElem? hi)

theorem Step.counts (h : Step opt tr entries g g') (hg : ∀ v, (g.worker v).Counts opt hopt)
    (hsmall : ∀ e, e ∈ entries → e.bytes.length < 2^31) (v : W) :
    (g'.worker v).Counts opt hopt := by
  cases h with
  | lock hpc _ | receive hpc _ | endOfPipe hpc _ _ | unlock hpc | breaks hpc | drop hpc
  | unmap hpc => exact counts_setPc hg (by rw [hpc]; rfl) (by rw [hpc]; rfl) v
  | work hwork => exact counts_update (hwork.counts (hg _) fun _ _ he => small_file hsmall he) hg v
  | _ => exact hg v

theorem Step.statics (h : Step opt tr entries (g.withStatics st) g')
    (hg : ∀ v, (g.worker v).Counts opt hopt) :
    ∃ b st', g' = b.withStatics st' ∧ Step opt tr entries g b := by
  cases h with
  | endOfTree hd he => exact ⟨_,st,rfl,.endOfTree hd he⟩
  | skip hd he hskip => exact ⟨_,st,rfl,.skip hd he hskip⟩
  | visit hd he hskip => exact ⟨_,st,rfl,.visit hd he hskip⟩
  | openFails hd he hopen => exact ⟨_,st,rfl,.openFails hd he hopen⟩
  | opens hd he hopen hfd => exact ⟨_,st,rfl,.opens hd he hopen hfd⟩
  | binary magicBuf hd he hm => exact ⟨_,st,rfl,.binary magicBuf hd he hm⟩
  | text magicBuf hd he hm he' => exact ⟨_,st,rfl,.text magicBuf hd he hm he'⟩
  | closeBinary hd => exact ⟨_,st,rfl,.closeBinary hd⟩
  | send hd => exact ⟨_,st,rfl,.send hd⟩
  | closeEnd hd => exact ⟨_,st,rfl,.closeEnd hd⟩
  | lock hpc hm => exact ⟨_,st,rfl,.lock hpc hm⟩
  | receive hpc hpipe => exact ⟨_,st,rfl,.receive hpc hpipe⟩
  | endOfPipe hpc hpipe hw => exact ⟨_,st,rfl,.endOfPipe hpc hpipe hw⟩
  | unlock hpc => exact ⟨_,st,rfl,.unlock hpc⟩
  | breaks hpc => exact ⟨_,st,rfl,.breaks hpc⟩
  | @work w _ _ hwork =>
    obtain ⟨t,st',rfl,hplain⟩ := hwork.statics (hg w)
    exact ⟨_,st',rfl,.work hplain⟩
  | drop hpc => exact ⟨_,st,rfl,.drop hpc⟩
  | unmap hpc => exact ⟨_,st,rfl,.unmap hpc⟩

theorem race_simulates (hsmall : ∀ e, e ∈ entries → e.bytes.length < 2^31) :
    Simulates (RaceStep opt tr entries) (Step opt tr entries) fun (x g : Sys W) =>
      (∃ st, x = g.withStatics st) ∧ ∀ v, (g.worker v).Counts opt hopt := by
  rintro x y g ⟨⟨st,rfl⟩,hg⟩ (hstep | ⟨st',rfl⟩)
  · obtain ⟨b,st',rfl,hb⟩ := hstep.statics hg
    exact .inr ⟨b,hb,⟨st',rfl⟩,hb.counts hg hsmall⟩
  · exact .inl ⟨⟨st',rfl⟩,hg⟩

theorem Reachable.races (h : Reachable opt tr entries g) :
    ReflTransGen (RaceStep opt tr entries) (initialSys W) g := by
  induction h with
  | refl => exact .refl
  | tail _ hstep ih => exact ih.tail (.inl hstep)

/-- The statics of worker_writebuffer do not matter. In a process in which they may take any
values between any two steps, every state that is reached is, up to them, reached without,
as long as no file has 2^31 bytes. -/
theorem statics_unseen (hopt : opt.Usable)
    (hsmall : ∀ e, e ∈ entries → e.bytes.length < 2^31) {x : Sys W}
    (hx : ReflTransGen (RaceStep opt tr entries) (initialSys W) x) :
    ∃ g, Reachable opt tr entries g ∧ x = g.withStatics x.shared.statics := by
  have hinit : ∀ w, ((initialSys W).worker w).Counts opt hopt := fun _ => ⟨rfl,trivial⟩
  obtain ⟨g,hg,⟨st,rfl⟩,-⟩ := (race_simulates hsmall).run ⟨⟨⟨0,0⟩,rfl⟩,hinit⟩ hx
  exact ⟨g,hg,rfl⟩

end

theorem statics_unseen_a : ∃ tr, magicInit none = some tr ∧ ∃ g : Sys (Fin 2),
    ReflTransGen (RaceStep optionsA tr [entryOf [97,10] (by decide)]) (initialSys (Fin 2))
      (g.withStatics ⟨7,7⟩) ∧
    Reachable optionsA tr [entryOf [97,10] (by decide)] g ∧ g.shared.printed = [0] := by
  obtain ⟨tr,hinit,g,hr,hp⟩ := reachable_lineA
  have hrace : ReflTransGen (RaceStep optionsA tr [entryOf [97,10] (by decide)])
      (initialSys (Fin 2)) (g.withStatics ⟨7,7⟩) := hr.races.tail (.inr ⟨⟨7,7⟩,rfl⟩)
  have hsmall : ∀ e, e ∈ [entryOf [97,10] (by decide)] → e.bytes.length < 2^31 := by
    simp [entryOf]
  obtain ⟨g',hr',hg'⟩ := statics_unseen optionsA_usable hsmall hrace
  refine ⟨tr,hinit,g',hg' ▸ hrace,hr',?_⟩
  have hshared := congrArg (fun g => g.shared.printed) hg'
  exact hshared.symm.trans hp

end SSearcher
