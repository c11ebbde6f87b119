import SSearcher.Simulation
import SSearcher.Listing
set_option autoImplicit false

/-! The print section of worker_thread call by call. outmtx makes one step of it. -/
namespace SSearcher
open Function Memory Ranking Relation Simulation

/-- Where a worker stands in the section under outmtx, up to its fflush. -/
inductive Stage where
  | outside : Stage
  | locked : Stage
  | named : Stage
  | listed : Stage
  | unlocked : Stage

/-- The process with the print section in single calls. stdout is buffered: `flushed` is
what has been written to its descriptor since the threads started, behind the lines that
parse_options prints. -/
structure Split (W : Type) where
  sys : Sys W
  outmtx : Option W
  stage : W → Stage
  flushed : List UInt8

variable {W : Type}

def Sys.withOutput (g : Sys W) (output : List UInt8) : Sys W :=
  { g with shared := { g.shared with output } }

/-- fprintf(stdout,...); it may write out some of the buffer. -/
def Split.fprintf (x : Split W) (s flushed : List UInt8) : Split W :=
  { x with sys := x.sys.withOutput (x.sys.shared.output ++ s),flushed }

variable [DecidableEq W]

def Split.goes (x : Split W) (w : W) (stage : Stage) : Split W :=
  { x with stage := update x.stage w stage }

/-- A worker in the section takes no other step, and no step prints at once. -/
inductive SplitStep (cap : Nat) (opt : Options) (tr : Trie) (entries : List Entry) :
    Split W → Split W → Prop where
  | other {x : Split W} {g : Sys W} : StepIn cap opt tr entries x.sys g →
      g.shared.printed = x.sys.shared.printed →
      (∀ w, x.stage w ≠ .outside → g.worker w = x.sys.worker w) →
      SplitStep cap opt tr entries x { x with sys := g }
  | lock {x : Split W} {w : W} {fi : FileInfo} : (x.sys.worker w).pc = .printing fi →
      (x.sys.worker w).buffer.off ≠ 0 → x.stage w = .outside → x.outmtx = none →
      SplitStep cap opt tr entries x { x.goes w .locked with outmtx := some w }
  | name {x : Split W} {w : W} {fi : FileInfo} {l : List UInt8} :
      (x.sys.worker w).pc = .printing fi → x.stage w = .locked → x.flushed <+: l →
      l <+: x.sys.shared.output ++ nameLine fi.filename →
      SplitStep cap opt tr entries x ((x.fprintf (nameLine fi.filename) l).goes w .named)
  | text {x : Split W} {w : W} {s l : List UInt8} : x.stage w = .named →
      opt.listMatchingFiles = false → readBuffer (x.sys.worker w).buffer = some s →
      x.flushed <+: l → l <+: x.sys.shared.output ++ (s ++ [newline]) →
      SplitStep cap opt tr entries x ((x.fprintf (s ++ [newline]) l).goes w .listed)
  | noText {x : Split W} {w : W} : x.stage w = .named → opt.listMatchingFiles = true →
      SplitStep cap opt tr entries x (x.goes w .listed)
  | unlock {x : Split W} {w : W} {fi : FileInfo} : (x.sys.worker w).pc = .printing fi →
      x.stage w = .listed → SplitStep cap opt tr entries x { x.goes w .unlocked with
        sys := { x.sys.setPc w (.resetting fi) with
          shared := { x.sys.shared with printed := x.sys.shared.printed ++ [fi.entry] } }
        outmtx := none }
  | flush {x : Split W} {w : W} : x.stage w = .unlocked →
      SplitStep cap opt tr entries x { x.goes w .outside with flushed := x.sys.shared.output }

def Split.whole (g : Sys W) : Split W := ⟨g,none,fun _ => .outside,g.shared.output⟩

section Frame
variable {opt : Options} {tr : Trie} {entries : List Entry} {g g' : Sys W} {cap : Nat}

theorem Work.frame {file : Nat → Option Entry} {x y : Worker} {s s' : Shared}
    (h : Work opt file (x,s) (y,s')) (hp : s'.printed = s.printed) : s'.output = s.output ∧
    ∀ o, Work opt file (x,{ s with output := o }) (y,{ s' with output := o }) := by
  cases h with
  | start hpc hb hk => exact ⟨rfl,fun _ => .start hpc hb hk⟩
  | mapEmpty hpc he hf => exact ⟨rfl,fun _ => .mapEmpty hpc he hf⟩
  | map hpc he hf => exact ⟨rfl,fun _ => .map hpc he hf⟩
  | found hpc hv => exact ⟨rfl,fun _ => .found hpc hv⟩
  | notFound hpc hv => exact ⟨rfl,fun _ => .notFound hpc hv⟩
  | print hpc _ _ => simp at hp
  | nothing hpc hoff => exact ⟨rfl,fun _ => .nothing hpc hoff⟩
  | reset hpc hb => exact ⟨rfl,fun _ => .reset hpc hb⟩
  | leave hpc => exact ⟨rfl,fun _ => .leave hpc⟩

theorem Step.frame (h : Step opt tr entries g g') (hp : g'.shared.printed = g.shared.printed) :
    g'.shared.output = g.shared.output ∧
    ∀ o, Step opt tr entries (g.withOutput o) (g'.withOutput o) := by
  cases h with
  | endOfTree hd he => exact ⟨rfl,fun _ => .endOfTree hd he⟩
  | skip hd he hskip => exact ⟨rfl,fun _ => .skip hd he hskip⟩
  | visit hd he hskip => exact ⟨rfl,fun _ => .visit hd he hskip⟩
  | openFails hd he hopen => exact ⟨rfl,fun _ => .openFails hd he hopen⟩
  | opens hd he hopen hfd => exact ⟨rfl,fun _ => .opens hd he hopen hfd⟩
  | binary magicBuf hd he hm => exact ⟨rfl,fun _ => .binary magicBuf hd he hm⟩
  | text magicBuf hd he hm he' => exact ⟨rfl,fun _ => .text magicBuf hd he hm he'⟩
  | closeBinary hd => exact ⟨rfl,fun _ => .closeBinary hd⟩
  | send hd => exact ⟨rfl,fun _ => .send hd⟩
  | closeEnd hd => exact ⟨rfl,fun _ => .closeEnd hd⟩
  | lock hpc hm => exact ⟨rfl,fun _ => .lock hpc hm⟩
  | receive hpc hpipe => exact ⟨rfl,fun _ => .receive hpc hpipe⟩
  | endOfPipe hpc hpipe hw => exact ⟨rfl,fun _ => .endOfPipe hpc hpipe hw⟩
  | unlock hpc => exact ⟨rfl,fun _ => .unlock hpc⟩
  | breaks hpc => exact ⟨rfl,fun _ => .breaks hpc⟩
  | work hwork =>
    obtain ⟨ho,hall⟩ := hwork.frame hp
    exact ⟨ho,fun o => .work (hall o)⟩
  | drop hpc => exact ⟨rfl,fun _ => .drop hpc⟩
  | unmap hpc => exact ⟨rfl,fun _ => .unmap hpc⟩

def Sys.prints (g : Sys W) (w : W) (fi : FileInfo) (s : List UInt8) : Sys W :=
  { g.setPc w (.resetting fi) with shared := { g.shared with
    output := g.shared.output ++ s
    printed := g.shared.printed ++ [fi.entry] } }

theorem Step.prints_or (h : Step opt tr entries g g') : g'.shared.printed = g.shared.printed ∨
    ∃ w fi s, (g.worker w).pc = .printing fi ∧ (g.worker w).buffer.off ≠ 0 ∧
      printResult opt fi (g.worker w).buffer = some s ∧ g' = g.prints w fi s := by
  cases h with
  | @work w _ _ hwork =>
    generalize hx : g.worker w = x at hwork
    cases hwork with
    | @print _ _ fi s hpc hoff hs =>
      subst hx
      exact .inr ⟨w,fi,s,hpc,hoff,hs,rfl⟩
    | _ => exact .inl rfl
  | _ => exact .inl rfl

theorem Sys.prints_step {w : W} {fi : FileInfo} {s : List UInt8}
    (hpc : (g.worker w).pc = .printing fi) (hoff : (g.worker w).buffer.off ≠ 0)
    (hs : printResult opt fi (g.worker w).buffer = some s) :
    StepIn cap opt tr entries g (g.prints w fi s) :=
  stepIn_of_le (.work (.print hpc hoff hs)) (Nat.le_refl _)

end Frame

def Stage.Inside : Stage → Prop
  | .locked | .named | .listed => True
  | _ => False

/-- Between the first output and the fflush. -/
def Stage.Late : Stage → Prop
  | .named | .listed | .unlocked => True
  | _ => False

def Stage.Fits (opt : Options) (x : Worker) : Stage → Prop
  | .outside => True
  | .locked | .named => ∃ fi, x.pc = .printing fi ∧ x.buffer.off ≠ 0
  | .listed => ∃ fi s, x.pc = .printing fi ∧ x.buffer.off ≠ 0 ∧
      printResult opt fi x.buffer = some s
  | .unlocked => ∃ fi, x.pc = .resetting fi

def Stage.begun (opt : Options) (x : Worker) : Stage → List UInt8
  | .named => x.pc.info.elim [] fun fi => nameLine fi.filename
  | .listed => (x.pc.info.bind fun fi => printResult opt fi x.buffer).getD []
  | _ => []

def Split.begun (opt : Options) (x : Split W) : List UInt8 :=
  x.outmtx.elim [] fun w => (x.stage w).begun opt (x.sys.worker w)

/-- `g` is the process in which a listing is printed when its worker unlocks outmtx. -/
structure Follows (opt : Options) (x : Split W) (g : Sys W) : Prop where
  sys : x.sys = g.withOutput (g.shared.output ++ x.begun opt)
  stages : ∀ w, (x.stage w).Fits opt (x.sys.worker w)
  holder : ∀ w, (x.stage w).Inside ↔ x.outmtx = some w
  flushed : x.flushed <+: x.sys.shared.output
  late : x.flushed = x.sys.shared.output ∨ ∃ w, (x.stage w).Late

section Follows
variable {opt : Options} {tr : Trie} {entries : List Entry} {g : Sys W} {cap : Nat}
  {x y : Split W} {w : W} {st : Stage}

omit [DecidableEq W] in
theorem begun_eq (h : x.outmtx = some w) :
    x.begun opt = (x.stage w).begun opt (x.sys.worker w) := by rw [Split.begun,h]; rfl

omit [DecidableEq W] in
theorem begun_none (h : x.outmtx = none) : x.begun opt = [] := by rw [Split.begun,h]; rfl

omit [DecidableEq W] in
theorem begun_congr (hm : y.outmtx = x.outmtx) (h : ∀ w, x.outmtx = some w →
    (y.stage w).begun opt (y.sys.worker w) = (x.stage w).begun opt (x.sys.worker w)) :
    y.begun opt = x.begun opt := by
  cases hx : x.outmtx with
  | none => rw [begun_none hx,begun_none (hm.trans hx)]
  | some w => rw [begun_eq hx,begun_eq (hm.trans hx),h w hx]

theorem fits_update {f : W → Worker} (h : ∀ v, (x.stage v).Fits opt (x.sys.worker v))
    (hw : st.Fits opt (f w)) (hf : ∀ v, v ≠ w → f v = x.sys.worker v) (v : W) :
    (update x.stage w st v).Fits opt (f v) := by
  rcases eq_or_ne v w with rfl | hne
  · rwa [update_self]
  · rw [update_of_ne hne,hf v hne]
    exact h v

theorem inside_enter (h : ∀ v, (x.stage v).Inside ↔ x.outmtx = some v)
    (hw : x.outmtx = none ∨ x.outmtx = some w) (hst : st.Inside) (v : W) :
    (update x.stage w st v).Inside ↔ some w = some v := by
  rcases eq_or_ne v w with rfl | hne
  · rw [update_self]
    exact iff_of_true hst rfl
  · rw [update_of_ne hne,h v]
    rcases hw with hw | hw <;> rw [hw]
    exact iff_of_false (by simp) fun he => hne (Option.some.inj he).symm

theorem inside_leave (h : ∀ v, (x.stage v).Inside ↔ x.outmtx = some v) (hw : x.outmtx = some w)
    (hst : ¬ st.Inside) (v : W) : (update x.stage w st v).Inside ↔ none = some v := by
  refine iff_of_false ?_ (by simp)
  rcases eq_or_ne v w with rfl | hne
  · rwa [update_self]
  · rw [update_of_ne hne,h v,hw]
    exact fun he => hne (Option.some.inj he).symm

theorem inside_keep (h : ∀ v, (x.stage v).Inside ↔ x.outmtx = some v)
    (hst : st.Inside ↔ (x.stage w).Inside) (v : W) :
    (update x.stage w st v).Inside ↔ x.outmtx = some v := by
  rcases eq_or_ne v w with rfl | hne
  · rw [update_self,hst,h v]
  · rw [update_of_ne hne,h v]

omit [DecidableEq W] in
theorem Follows.init (opt : Options) (g : Sys W) : Follows opt (Split.whole g) g := by
  refine ⟨?_,fun _ => trivial,fun _ => ⟨False.elim,fun h => (by cases h)⟩,List.prefix_rfl,.inl rfl⟩
  rw [begun_none rfl,List.append_nil]
  rfl

theorem Follows.other {g' : Sys W} (h : Follows opt x g) (hstep : StepIn cap opt tr entries x.sys g')
    (hp : g'.shared.printed = x.sys.shared.printed)
    (hw : ∀ w, x.stage w ≠ .outside → g'.worker w = x.sys.worker w) :
    ∃ b, StepIn cap opt tr entries g b ∧ Follows opt { x with sys := g' } b := by
  obtain ⟨hout,hframe⟩ := hstep.1.frame hp
  have hg : x.sys.withOutput g.shared.output = g := by rw [h.sys]; rfl
  have hbegun : Split.begun opt { x with sys := g' } = x.begun opt := by
    refine begun_congr rfl fun w hm => ?_
    have hne : x.stage w ≠ .outside := fun he => by
      have hin := (h.holder w).mpr hm
      rw [he] at hin
      exact hin
    exact congrArg (fun v => (x.stage w).begun opt v) (hw w hne)
  refine ⟨g'.withOutput g.shared.output,⟨hg ▸ hframe _,?_⟩,?_,fun w => ?_,h.holder,?_,?_⟩
  · have hpipe : x.sys.pipe = g.pipe := by rw [h.sys]; rfl
    rw [← hpipe]
    exact hstep.2
  · rw [hbegun]
    change g' = g'.withOutput (g.shared.output ++ x.begun opt)
    have hx : x.sys.shared.output = g.shared.output ++ x.begun opt := by rw [h.sys]; rfl
    rw [← hx,← hout]
    rfl
  · by_cases hout : x.stage w = .outside
    · change (x.stage w).Fits opt (g'.worker w)
      rw [hout]
      trivial
    · change (x.stage w).Fits opt (g'.worker w)
      rw [hw w hout]
      exact h.stages w
  · change x.flushed <+: g'.shared.output
    rw [hout]
    exact h.flushed
  · change x.flushed = g'.shared.output ∨ _
    rw [hout]
    exact h.late

theorem Follows.lock {fi : FileInfo} (h : Follows opt x g) (hpc : (x.sys.worker w).pc = .printing fi)
    (hoff : (x.sys.worker w).buffer.off ≠ 0) (hst : x.stage w = .outside) (hm : x.outmtx = none) :
    Follows opt { x.goes w .locked with outmtx := some w } g := by
  refine ⟨?_,fits_update h.stages ⟨fi,hpc,hoff⟩ fun _ _ => rfl,
    inside_enter h.holder (.inl hm) trivial,h.flushed,?_⟩
  · have hbegun : x.begun opt = [] := begun_none hm
    rw [begun_eq (x := { x.goes w .locked with outmtx := some w }) rfl]
    change x.sys = g.withOutput (g.shared.output ++ (update x.stage w .locked w).begun opt _)
    rw [update_self,h.sys,hbegun]
    rfl
  · refine h.late.imp_right fun ⟨v,hv⟩ => ⟨v,?_⟩
    have hne : v ≠ w := by
      rintro rfl
      rw [hst] at hv
      exact hv
    change (update x.stage w .locked v).Late
    rwa [update_of_ne hne]

theorem Follows.goes {s : List UInt8} (h : Follows opt x g) (hm : x.outmtx = some w)
    (hsys : y.sys = x.sys.withOutput (x.sys.shared.output ++ s)) (hmtx : y.outmtx = some w)
    (hstage : y.stage = update x.stage w st) (hfits : st.Fits opt (x.sys.worker w))
    (hin : st.Inside) (hlate : st.Late) (hbegun : st.begun opt (x.sys.worker w) = x.begun opt ++ s)
    (hl : y.flushed <+: y.sys.shared.output) : Follows opt y g := by
  have hself : y.stage w = st := by rw [hstage,update_self]
  have hworker : y.sys.worker = x.sys.worker := by rw [hsys]; rfl
  refine ⟨?_,fun v => ?_,fun v => ?_,hl,.inr ⟨w,hself ▸ hlate⟩⟩
  · rw [begun_eq hmtx,hself,hworker,hbegun,hsys,h.sys,← List.append_assoc]
    rfl
  · rw [hstage,hworker]
    exact fits_update h.stages hfits (fun _ _ => rfl) v
  · rw [hstage,hmtx]
    exact inside_enter h.holder (.inr hm) hin v

theorem Follows.name {fi : FileInfo} {l : List UInt8} (h : Follows opt x g)
    (hpc : (x.sys.worker w).pc = .printing fi) (hst : x.stage w = .locked)
    (hl : l <+: x.sys.shared.output ++ nameLine fi.filename) :
    Follows opt ((x.fprintf (nameLine fi.filename) l).goes w .named) g := by
  have hm := (h.holder w).mp (by rw [hst]; trivial)
  have hfits := h.stages w
  rw [hst] at hfits
  refine h.goes hm rfl hm rfl hfits trivial trivial ?_ hl
  rw [begun_eq hm,hst,Stage.begun,hpc]
  rfl

theorem Follows.text {s l : List UInt8} (h : Follows opt x g) (hst : x.stage w = .named)
    (hlist : opt.listMatchingFiles = false) (hread : readBuffer (x.sys.worker w).buffer = some s)
    (hl : l <+: x.sys.shared.output ++ (s ++ [newline])) :
    Follows opt ((x.fprintf (s ++ [newline]) l).goes w .listed) g := by
  have hm := (h.holder w).mp (by rw [hst]; trivial)
  have hfits := h.stages w
  rw [hst] at hfits
  obtain ⟨fi,hpc,hoff⟩ := hfits
  have hs : printResult opt fi (x.sys.worker w).buffer =
      some (nameLine fi.filename ++ s ++ [newline]) := by
    rw [printResult,hlist,hread]
    rfl
  refine h.goes hm rfl hm rfl ⟨fi,_,hpc,hoff,hs⟩ trivial trivial ?_ hl
  rw [begun_eq hm,hst,Stage.begun,Stage.begun,hpc]
  change (printResult opt fi (x.sys.worker w).buffer).getD [] = _
  rw [hs,← List.append_assoc]
  rfl

theorem Follows.noText (h : Follows opt x g) (hst : x.stage w = .named)
    (hlist : opt.listMatchingFiles = true) : Follows opt (x.goes w .listed) g := by
  have hm := (h.holder w).mp (by rw [hst]; trivial)
  have hfits := h.stages w
  rw [hst] at hfits
  obtain ⟨fi,hpc,hoff⟩ := hfits
  have hs : printResult opt fi (x.sys.worker w).buffer = some (nameLine fi.filename) :=
    if_pos hlist
  refine h.goes (s := []) hm ?_ hm rfl ⟨fi,_,hpc,hoff,hs⟩ trivial trivial ?_ h.flushed
  · rw [List.append_nil]
    rfl
  · rw [begun_eq hm,hst,Stage.begun,Stage.begun,hpc,List.append_nil]
    change (printResult opt fi (x.sys.worker w).buffer).getD [] = _
    rw [hs]
    rfl

theorem Follows.unlock {fi : FileInfo} (h : Follows opt x g)
    (hpc : (x.sys.worker w).pc = .printing fi) (hst : x.stage w = .listed) :
    ∃ b, StepIn cap opt tr entries g b ∧ Follows opt { x.goes w .unlocked with
      sys := { x.sys.setPc w (.resetting fi) with
        shared := { x.sys.shared with printed := x.sys.shared.printed ++ [fi.entry] } }
      outmtx := none } b := by
  have hm : x.outmtx = some w := (h.holder w).mp (by rw [hst]; trivial)
  have hworker : x.sys.worker = g.worker := by rw [h.sys]; rfl
  have hfits := h.stages w
  rw [hst] at hfits
  obtain ⟨fi',s,hpc',hoff,hs⟩ := hfits
  obtain rfl : fi' = fi := by
    rw [hpc] at hpc'
    cases hpc'
    rfl
  have hbegun : x.begun opt = s := by
    rw [begun_eq hm,hst,Stage.begun,hpc]
    change (printResult opt fi' (x.sys.worker w).buffer).getD [] = s
    rw [hs]
    rfl
  refine ⟨g.prints w fi' s,Sys.prints_step (hworker ▸ hpc) (hworker ▸ hoff) (hworker ▸ hs),
    ?_,?_,inside_leave h.holder hm id,h.flushed,.inr ⟨w,?_⟩⟩
  · rw [begun_none rfl,List.append_nil,h.sys,hbegun]
    rfl
  · refine fits_update h.stages ⟨fi',?_⟩ fun v hv => update_of_ne hv ..
    change (update x.sys.worker w _ w).pc = _
    rw [update_self]
  · change (update x.stage w .unlocked w).Late
    rw [update_self]
    trivial

theorem Follows.flush (h : Follows opt x g) (hst : x.stage w = .unlocked) :
    Follows opt { x.goes w .outside with flushed := x.sys.shared.output } g := by
  refine ⟨?_,fits_update h.stages trivial fun _ _ => rfl,
    inside_keep h.holder (by rw [hst]; exact Iff.rfl),List.prefix_rfl,.inl rfl⟩
  rw [begun_congr (x := x) (y := { x.goes w .outside with flushed := x.sys.shared.output }) rfl]
  · exact h.sys
  · intro v hm
    have hne : v ≠ w := by
      rintro rfl
      have hin := (h.holder v).mpr hm
      rw [hst] at hin
      exact hin
    change (update x.stage w .outside v).begun opt _ = _
    rw [update_of_ne hne]
    rfl

/-- The steps a worker may take before it unlocks outmtx again, or has flushed. -/
def Stage.weight : Stage → Nat
  | .listed => 0
  | .named => 1
  | .locked => 2
  | .outside => 3
  | .unlocked => 4

def Split.weight [Fintype W] (x : Split W) : Nat := ∑ w, (x.stage w).weight

theorem weight_goes [Fintype W] (x : Split W) (w : W) (st : Stage) :
    (x.goes w st).weight + (x.stage w).weight = x.weight + st.weight :=
  Custody.sum_update Stage.weight x.stage w st

theorem weight_lt [Fintype W] (h : st.weight < (x.stage w).weight) :
    (x.goes w st).weight < x.weight := by
  have hweight := weight_goes x w st
  omega

/-- Only the unlock of outmtx is seen as a step of the print section. -/
theorem split_paced [Fintype W] : Paced (SplitStep cap opt tr entries)
    (StepIn cap opt tr entries) (Follows opt) (Split.weight (W := W)) 5 := by
  intro x y g h hstep
  cases hstep with
  | other hstep hp hw =>
    obtain ⟨b,hb,hfollows⟩ := h.other hstep hp hw
    exact .inr ⟨b,hb,hfollows,Nat.lt_add_of_pos_right (by decide)⟩
  | @lock w fi hpc hoff hst hm =>
    exact .inl ⟨h.lock hpc hoff hst hm,weight_lt (x := x) (w := w) (by rw [hst]; decide)⟩
  | @name w fi l hpc hst _ hl =>
    exact .inl ⟨h.name hpc hst hl,weight_lt (x := x) (w := w) (by rw [hst]; decide)⟩
  | @text w s l hst hlist hread _ hl =>
    exact .inl ⟨h.text hst hlist hread hl,weight_lt (x := x) (w := w) (by rw [hst]; decide)⟩
  | @noText w hst hlist => exact .inl ⟨h.noText hst hlist,weight_lt (by rw [hst]; decide)⟩
  | @unlock w fi hpc hst =>
    have hweight := weight_goes x w .unlocked
    rw [hst] at hweight
    obtain ⟨b,hb,hfollows⟩ := h.unlock hpc hst
    refine .inr ⟨b,hb,hfollows,?_⟩
    change (x.goes w .unlocked).weight < x.weight + 5
    simp only [Stage.weight] at hweight
    omega
  | @flush w hst =>
    exact .inl ⟨h.flush hst,weight_lt (x := x) (w := w) (by rw [hst]; decide)⟩

theorem Split.follows [Fintype W]
    (hx : ReflTransGen (SplitStep cap opt tr entries) (.whole (initialSys W)) x) :
    ∃ g, ReflTransGen (StepIn cap opt tr entries) (initialSys W) g ∧ Follows opt x g :=
  split_paced.simulates.run (.init opt (initialSys W)) hx

omit [DecidableEq W] in
theorem Follows.sys_eq (h : Follows opt x g) (hm : x.outmtx = none) : x.sys = g := by
  rw [h.sys,begun_none hm,List.append_nil]
  rfl

def Split.during (g : Sys W) (w : W) (st : Stage) (output : List UInt8) : Split W :=
  ⟨g.withOutput output,some w,update (fun _ => .outside) w st,g.shared.output⟩

theorem during_stage (g : Sys W) (w : W) (st : Stage) (output : List UInt8) :
    (Split.during g w st output).stage w = st := by
  simp only [Split.during,update_self]

theorem during_goes (g : Sys W) (w : W) (st st' : Stage) (output : List UInt8) :
    (Split.during g w st output).goes w st' = .during g w st' output := by
  simp [Split.during,Split.goes]

theorem during_name {fi : FileInfo} (hpc : (g.worker w).pc = .printing fi) :
    SplitStep cap opt tr entries (.during g w .locked g.shared.output)
      (.during g w .named (g.shared.output ++ nameLine fi.filename)) := by
  rw [← during_goes g w .locked .named]
  exact .name hpc (during_stage ..) List.prefix_rfl (List.prefix_append ..)

theorem during_text {fi : FileInfo} {s : List UInt8}
    (hs : printResult opt fi (g.worker w).buffer = some s) :
    SplitStep cap opt tr entries
      (.during g w .named (g.shared.output ++ nameLine fi.filename))
      (.during g w .listed (g.shared.output ++ s)) := by
  rw [← during_goes g w .named .listed]
  cases hlist : opt.listMatchingFiles with
  | true =>
    rw [printResult,if_pos hlist] at hs
    cases hs
    exact .noText (during_stage ..) hlist
  | false =>
    rw [printResult,hlist,if_neg Bool.false_ne_true] at hs
    obtain ⟨t,hread,rfl⟩ := Option.map_eq_some_iff.mp hs
    rw [List.append_assoc,← List.append_assoc g.shared.output]
    exact .text (during_stage ..) hlist hread List.prefix_rfl
      ((List.prefix_append g.shared.output _).trans (List.prefix_append ..))

theorem during_unlock {fi : FileInfo} {s : List UInt8} (hpc : (g.worker w).pc = .printing fi) :
    SplitStep cap opt tr entries (.during g w .listed (g.shared.output ++ s))
      ⟨g.prints w fi s,none,update (fun _ => .outside) w .unlocked,g.shared.output⟩ := by
  have hstage : update (update (fun _ : W => Stage.outside) w .listed) w .unlocked =
      update (fun _ => .outside) w .unlocked := update_idem ..
  rw [← hstage]
  exact .unlock (x := .during g w .listed (g.shared.output ++ s)) hpc (during_stage ..)

theorem during_flush {output : List UInt8} : SplitStep cap opt tr entries
    ⟨g,none,update (fun _ => .outside) w .unlocked,output⟩ (.whole g) := by
  have hself : update (fun _ : W => Stage.outside) w .unlocked w = .unlocked := update_self ..
  have hstep : SplitStep cap opt tr entries
      ⟨g,none,update (fun _ => .outside) w .unlocked,output⟩
      ⟨g,none,update (update (fun _ => .outside) w .unlocked) w .outside,g.shared.output⟩ :=
    .flush hself
  have hend : update (update (fun _ : W => Stage.outside) w .unlocked) w .outside =
      fun _ => .outside := by rw [update_idem,update_eq_self_iff]
  rwa [hend] at hstep

theorem split_prints {fi : FileInfo} {s : List UInt8} (hpc : (g.worker w).pc = .printing fi)
    (hoff : (g.worker w).buffer.off ≠ 0) (hs : printResult opt fi (g.worker w).buffer = some s) :
    ReflTransGen (SplitStep cap opt tr entries) (.whole g) (.whole (g.prints w fi s)) := by
  have hlock : SplitStep cap opt tr entries (.whole g) (.during g w .locked g.shared.output) :=
    .lock hpc hoff rfl rfl
  exact .tail (.tail (.tail (.tail (.single hlock) (during_name hpc)) (during_text hs))
    (during_unlock hpc)) during_flush

theorem split_of_step {g' : Sys W} (h : StepIn cap opt tr entries g g') :
    ReflTransGen (SplitStep cap opt tr entries) (.whole g) (.whole g') := by
  rcases h.1.prints_or with hp | ⟨w,fi,s,hpc,hoff,hs,rfl⟩
  · have hstep : SplitStep cap opt tr entries (.whole g) { Split.whole g with sys := g' } :=
      .other h hp fun w hw => absurd rfl hw
    have hwhole : { Split.whole g with sys := g' } = Split.whole g' := by
      rw [Split.whole,Split.whole,(h.1.frame hp).1]
    exact hwhole ▸ .single hstep
  · exact split_prints hpc hoff hs

omit [DecidableEq W] in
theorem Follows.begun_prefix (h : Follows opt x g) (hm : x.outmtx = some w) :
    ∃ fi, (x.sys.worker w).pc = .printing fi ∧ (x.sys.worker w).buffer.off ≠ 0 ∧
      ∀ s, printResult opt fi (x.sys.worker w).buffer = some s → x.begun opt <+: s := by
  have hin := (h.holder w).mpr hm
  have hfits := h.stages w
  rw [begun_eq hm]
  cases hst : x.stage w with
  | outside | unlocked =>
    rw [hst] at hin
    exact hin.elim
  | locked =>
    rw [hst] at hfits
    obtain ⟨fi,hpc,hoff⟩ := hfits
    exact ⟨fi,hpc,hoff,fun s _ => List.nil_prefix⟩
  | named =>
    rw [hst] at hfits
    obtain ⟨fi,hpc,hoff⟩ := hfits
    refine ⟨fi,hpc,hoff,fun s hs => ?_⟩
    rw [Stage.begun,hpc]
    change nameLine fi.filename <+: s
    rw [printResult] at hs
    split at hs
    · cases hs
      exact List.prefix_rfl
    · obtain ⟨t,-,rfl⟩ := Option.map_eq_some_iff.mp hs
      rw [List.append_assoc]
      exact List.prefix_append ..
  | listed =>
    rw [hst] at hfits
    obtain ⟨fi,s,hpc,hoff,hs⟩ := hfits
    refine ⟨fi,hpc,hoff,fun s' hs' => ?_⟩
    rw [Stage.begun,hpc]
    change (printResult opt fi (x.sys.worker w).buffer).getD [] <+: s'
    rw [hs']
    exact List.prefix_rfl

/-- The print section is one step. Whatever the order of the single calls, no two workers
are between the lock and the unlock of outmtx, and the state is one the process reaches
with the section as one step, up to the beginning of a listing that the worker holding
outmtx has printed; and all these states are reached. -/
theorem print_atomic [Fintype W] (cap : Nat) (opt : Options) (tr : Trie) (entries : List Entry) :
    (∀ x : Split W, ReflTransGen (SplitStep cap opt tr entries) (.whole (initialSys W)) x →
      (∀ v w, (x.stage v).Inside → (x.stage w).Inside → v = w) ∧
      ∃ g, ReflTransGen (StepIn cap opt tr entries) (initialSys W) g ∧
        x.sys = g.withOutput (g.shared.output ++ x.begun opt) ∧
        (x.outmtx = none → x.sys = g) ∧
        ∀ w, x.outmtx = some w → ∃ fi, (x.sys.worker w).pc = .printing fi ∧
          ∀ s, printResult opt fi (x.sys.worker w).buffer = some s → x.begun opt <+: s) ∧
    ∀ g : Sys W, ReflTransGen (StepIn cap opt tr entries) (initialSys W) g →
      ReflTransGen (SplitStep cap opt tr entries) (.whole (initialSys W)) (.whole g) := by
  refine ⟨fun x hx => ?_,fun g hg => ?_⟩
  · obtain ⟨g,hg,h⟩ := Split.follows hx
    refine ⟨fun v w hv hw => ?_,g,hg,h.sys,h.sys_eq,fun w hm => ?_⟩
    · exact Option.some.inj (((h.holder v).mp hv).symm.trans ((h.holder w).mp hw))
    · obtain ⟨fi,hpc,-,hs⟩ := h.begun_prefix hm
      exact ⟨fi,hpc,hs⟩
  · induction hg with
    | refl => exact .refl
    | tail _ hstep ih => exact ih.trans (split_of_step hstep)

end Follows

end SSearcher
