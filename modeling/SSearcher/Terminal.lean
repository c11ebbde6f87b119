import SSearcher.Printing
set_option autoImplicit false

namespace SSearcher
open Function Memory Ranking Relation Simulation

variable {W : Type} [Fintype W] [DecidableEq W] {opt : Options} {hopt : opt.Usable} {tr : Trie}
  {entries : List Entry} {cap : Nat} {g : Sys W} {x : Split W}

/-- All threads have ended and everything is written. -/
structure Split.Ended (x : Split W) : Prop where
  sys : x.sys.Ended
  outmtx : x.outmtx = none
  flushed : x.flushed = x.sys.shared.output

theorem Follows.goes_in (h : Follows opt x g) (ht : g.Tidy opt hopt entries) (hi : g.Inv)
    (hfit : g.Fit opt hopt entries) {w : W} (hw : x.stage w ≠ .outside) :
    ∃ y, SplitStep cap opt tr entries x y := by
  have hfits := h.stages w
  cases hst : x.stage w with
  | outside => exact absurd hst hw
  | locked =>
    rw [hst] at hfits
    obtain ⟨fi,hpc,-⟩ := hfits
    exact ⟨_,.name hpc hst List.prefix_rfl (h.flushed.trans (List.prefix_append ..))⟩
  | named =>
    rw [hst] at hfits
    obtain ⟨fi,hpc,-⟩ := hfits
    cases hlist : opt.listMatchingFiles with
    | true => exact ⟨_,.noText hst hlist⟩
    | false =>
      have hworker : x.sys.worker = g.worker := by rw [h.sys]; rfl
      obtain ⟨s,hs⟩ := ht.printResult hi hfit (hworker ▸ hpc)
      rw [printResult,hlist,if_neg Bool.false_ne_true,← hworker] at hs
      obtain ⟨t,hread,-⟩ := Option.map_eq_some_iff.mp hs
      exact ⟨_,.text hst hlist hread List.prefix_rfl (h.flushed.trans (List.prefix_append ..))⟩
  | listed =>
    rw [hst] at hfits
    obtain ⟨fi,s,hpc,-⟩ := hfits
    exact ⟨_,.unlock hpc hst⟩
  | unlocked => exact ⟨_,.flush hst⟩

theorem split_goes [Nonempty W] (hcap : 0 < cap) (hall : AllFit opt hopt tr entries)
    (hx : ReflTransGen (SplitStep cap opt tr entries) (.whole (initialSys W)) x)
    (hended : ¬ x.Ended) : ∃ y, SplitStep cap opt tr entries x y := by
  obtain ⟨g,hg,h⟩ := Split.follows hx
  have hr := reachable_of_stepIn hg
  have hfit := hr.fit hall
  by_cases hout : ∀ w, x.stage w = .outside
  · have hm : x.outmtx = none := by
      refine Option.eq_none_iff_forall_ne_some.mpr fun w hw => ?_
      have hin := (h.holder w).mpr hw
      rw [hout w] at hin
      exact hin
    have hsys := h.sys_eq hm
    have hnot : ¬ g.Ended := by
      refine fun he => hended ⟨hsys ▸ he,hm,h.late.resolve_right ?_⟩
      rintro ⟨w,hw⟩
      rw [hout w] at hw
      exact hw
    obtain ⟨g',hstep⟩ := some_thread_goes hcap hr hfit hnot
    subst hsys
    rcases hstep.1.prints_or with hp | ⟨w,fi,s,hpc,hoff,-,-⟩
    · exact ⟨_,.other hstep hp fun w hw => absurd (hout w) hw⟩
    · exact ⟨_,.lock hpc hoff (hout w) hm⟩
  · obtain ⟨w,hw⟩ := not_forall.mp hout
    exact h.goes_in (hr.tidy hfit) hr.inv hfit hw

theorem split_lowers (hall : AllFit opt hopt tr entries) :
    Lowers (SplitStep cap opt tr entries) (.whole (initialSys W))
      fun x => 5 * x.sys.rank entries + x.weight :=
  split_paced.lowers (.init opt _) (stepIn_lowers hall) fun x g h => by rw [h.sys]; rfl

theorem split_ended_of_final [Nonempty W] (hcap : 0 < cap) (hall : AllFit opt hopt tr entries)
    (hx : ReflTransGen (SplitStep cap opt tr entries) (.whole (initialSys W)) x)
    (hfinal : Final (SplitStep cap opt tr entries) x) : x.Ended := by
  by_contra hno
  obtain ⟨y,hy⟩ := split_goes hcap hall hx hno
  exact hfinal y hy

theorem exists_split_ended [Nonempty W] (hcap : 0 < cap) (hall : AllFit opt hopt tr entries)
    (hx : ReflTransGen (SplitStep cap opt tr entries) (.whole (initialSys W)) x) :
    ∃ y, ReflTransGen (SplitStep cap opt tr entries) x y ∧ y.Ended := by
  obtain ⟨y,hy,hfinal⟩ := (split_lowers hall).exists_final hx
  exact ⟨y,hy,split_ended_of_final hcap hall (hx.trans hy) hfinal⟩

/-- With the print section in single calls and a pipe of any size the process ends, and
when no thread can go on all have ended and all that was printed has been written. -/
theorem section_ends [Nonempty W] (hcap : 0 < cap) (hall : AllFit opt hopt tr entries) :
    (∀ n run, IsRun (SplitStep cap opt tr entries) n run → run 0 = .whole (initialSys W) →
      n ≤ 5 * ((entries.map fun e => e.bytes.length + 12).sum + 2 + 5 * Fintype.card W) +
        3 * Fintype.card W) ∧
    ∀ x : Split W, ReflTransGen (SplitStep cap opt tr entries) (.whole (initialSys W)) x →
      (Final (SplitStep cap opt tr entries) x → x.Ended) ∧
      ∃ y, ReflTransGen (SplitStep cap opt tr entries) x y ∧ y.Ended := by
  refine ⟨fun n run hrun h0 => ?_,
    fun x hx => ⟨split_ended_of_final hcap hall hx,exists_split_ended hcap hall hx⟩⟩
  have hle := (split_lowers hall).run_le hrun h0
  have hweight : (Split.whole (initialSys W)).weight = 3 * Fintype.card W := by
    rw [Nat.mul_comm]
    exact Finset.sum_const _
  rw [hweight] at hle
  change n ≤ 5 * (initialSys W).rank entries + _ at hle
  rwa [rank_init] at hle

theorem section_ends_a : ∃ tr, magicInit none = some tr ∧ ∃ x : Split (Fin 2),
    ReflTransGen (SplitStep 1 optionsA tr [entryOf [97,10] (by decide)])
      (.whole (initialSys (Fin 2))) x ∧ x.Ended := by
  obtain ⟨tr,hinit,-⟩ := magicInit_words
  exact ⟨tr,hinit,((section_ends Nat.one_pos (allFit_lineA tr 1)).2 _ .refl).2⟩

def Entry.Listed (opt : Options) (e : Entry) : Prop :=
  e.skipped = false ∧ e.opens = true ∧ ¬ IsMagic e.bytes ∧ e.Contains opt

end SSearcher
