import Mathlib.Logic.Relation
set_option autoImplicit false

/-! Runs of imperative programs. A run lists the events it emitted, in order,
and the value it returned, if it returned one. -/
namespace Runs

/-- `val = none` is a run without a result: it does not end, or it is stuck. Its events
up to that point stay in the log. -/
structure Run (ε α : Type) where
  val : Option α
  log : List ε

namespace Run
variable {ε δ α β σ ρ : Type}

instance : Monad (Run ε) where
  pure a := ⟨some a,[]⟩
  bind x f :=
    ⟨x.val.bind fun a => (f a).val,x.log ++ x.val.elim [] fun a => (f a).log⟩

def emit (e : ε) : Run ε Unit := ⟨some (),[e]⟩

def emits (es : List ε) : Run ε Unit := ⟨some (),es⟩

def stuck : Run ε α := ⟨none,[]⟩

/-- Rename the events of a run, as a callee's pointer offsets become offsets of
the block the caller passed. -/
def relabel (f : ε → δ) (x : Run ε α) : Run δ α := ⟨x.val,x.log.map f⟩

/-- The run, but without a result when one of its events fails a test that depends
on the result. -/
def guarded (ok : α → ε → Bool) (x : Run ε α) : Run ε α :=
  ⟨x.val.filter fun a => x.log.all (ok a),x.log⟩

@[simp] theorem val_pure (a : α) : (pure a : Run ε α).val = some a := rfl

@[simp] theorem log_pure (a : α) : (pure a : Run ε α).log = [] := rfl

@[simp] theorem val_emit (e : ε) : (emit e).val = some () := rfl

@[simp] theorem log_emit (e : ε) : (emit e).log = [e] := rfl

@[simp] theorem val_emits (es : List ε) : (emits es).val = some () := rfl

@[simp] theorem log_emits (es : List ε) : (emits es).log = es := rfl

@[simp] theorem val_stuck : (stuck : Run ε α).val = none := rfl

@[simp] theorem log_stuck : (stuck : Run ε α).log = [] := rfl

@[simp] theorem val_relabel (f : ε → δ) (x : Run ε α) : (x.relabel f).val = x.val := rfl

@[simp] theorem log_relabel (f : ε → δ) (x : Run ε α) :
    (x.relabel f).log = x.log.map f := rfl

@[simp] theorem val_bind (x : Run ε α) (f : α → Run ε β) :
    (x >>= f).val = x.val.bind fun a => (f a).val := by
  obtain ⟨v,l⟩ := x
  cases v <;> rfl

theorem log_bind (x : Run ε α) (f : α → Run ε β) :
    (x >>= f).log = x.log ++ x.val.elim [] fun a => (f a).log := by
  obtain ⟨v,l⟩ := x
  cases v <;> rfl

@[simp] theorem log_bind_of_val {x : Run ε α} {a : α} (f : α → Run ε β)
    (h : x.val = some a) : (x >>= f).log = x.log ++ (f a).log := by
  simp [log_bind,h]

@[simp] theorem log_bind_pure (x : Run ε α) (f : α → β) :
    (x >>= fun a => pure (f a)).log = x.log := by
  rw [log_bind]
  cases x.val <;> simp

theorem bind_eq_some {x : Run ε α} {f : α → Run ε β} {b : β} :
    (x >>= f).val = some b ↔ ∃ a, x.val = some a ∧ (f a).val = some b := by
  simp [Option.bind_eq_some_iff]

theorem mem_log_bind {x : Run ε α} {f : α → Run ε β} {e : ε} :
    e ∈ (x >>= f).log ↔ e ∈ x.log ∨ ∃ a, x.val = some a ∧ e ∈ (f a).log := by
  rw [log_bind]
  cases h : x.val <;> simp

@[simp] theorem log_guarded (ok : α → ε → Bool) (x : Run ε α) :
    (x.guarded ok).log = x.log := rfl

theorem guarded_eq_some {ok : α → ε → Bool} {x : Run ε α} {a : α} :
    (x.guarded ok).val = some a ↔ x.val = some a ∧ ∀ e, e ∈ x.log → ok a e = true := by
  simp [guarded,Option.filter_eq_some_iff]

def Gives (x : Run ε α) (a : α) (l : List ε) : Prop := x = ⟨some a,l⟩

theorem Gives.pure (a : α) : Gives (pure a : Run ε α) a [] := rfl

theorem Gives.bind {x : Run ε α} {f : α → Run ε β} {a : α} {b : β} {l l' : List ε}
    (hx : Gives x a l) (hf : Gives (f a) b l') : Gives (x >>= f) b (l++l') := by
  cases hx
  change (⟨(f a).val,l ++ (f a).log⟩ : Run ε β) = _
  rw [hf]

def Only (E : ε → Prop) (x : Run ε α) : Prop := ∀ e, e ∈ x.log → E e

theorem Only.pure (E : ε → Prop) (a : α) : Only E (pure a : Run ε α) := by simp [Only]

theorem Only.stuck (E : ε → Prop) : Only E (stuck : Run ε α) := by simp [Only]

theorem Only.bind {E : ε → Prop} {x : Run ε α} {f : α → Run ε β} (hx : Only E x)
    (hf : ∀ a, x.val = some a → Only E (f a)) : Only E (x >>= f) := by
  intro e he
  rcases mem_log_bind.mp he with he | ⟨a,ha,he⟩
  · exact hx e he
  · exact hf a ha e he

theorem Only.ite {E : ε → Prop} {c : Prop} [Decidable c] {x y : Run ε α}
    (hx : c → Only E x) (hy : ¬ c → Only E y) : Only E (if c then x else y) := by
  split
  · exact hx ‹_›
  · exact hy ‹_›

theorem Only.mono {E F : ε → Prop} {x : Run ε α} (h : Only E x) (hEF : ∀ e, E e → F e) :
    Only F x := fun e he => hEF e (h e he)

/-- A while loop: `step` runs the guard and the body once and either goes round
again or leaves with a result. Out of fuel, the loop has not ended. -/
def loop (step : σ → Run ε (σ ⊕ ρ)) : Nat → σ → Run ε ρ
  | 0, _ => stuck
  | n+1, s => do
    match ← step s with
    | .inl s' => loop step n s'
    | .inr r => pure r

/-- The states at the head of the loop, from one on. -/
def Reaches (step : σ → Run ε (σ ⊕ ρ)) : σ → σ → Prop :=
  Relation.ReflTransGen fun s s' => (step s).val = some (.inl s')

variable {step : σ → Run ε (σ ⊕ ρ)}

theorem Reaches.refl (s : σ) : Reaches step s s := Relation.ReflTransGen.refl

theorem Reaches.tail {s s' s'' : σ} (h : Reaches step s s')
    (hs : (step s').val = some (.inl s'')) : Reaches step s s'' :=
  Relation.ReflTransGen.tail h hs

theorem Reaches.head {s s' s'' : σ} (hs : (step s).val = some (.inl s'))
    (h : Reaches step s' s'') : Reaches step s s'' :=
  Relation.ReflTransGen.head hs h

theorem Reaches.invariant {I : σ → Prop}
    (hstep : ∀ s s', I s → (step s).val = some (.inl s') → I s')
    {s s' : σ} (h : Reaches step s s') (hi : I s) : I s' := by
  induction h with
  | refl => exact hi
  | tail _ hs ih => exact hstep _ _ ih hs

theorem loop_succ (n : Nat) (s : σ) :
    loop step (n+1) s = (step s >>= fun x => match x with
      | .inl s' => loop step n s'
      | .inr r => pure r) := rfl

theorem loop_of_inl {s s' : σ} (n : Nat) (h : (step s).val = some (.inl s')) :
    loop step (n+1) s = ⟨(loop step n s').val,(step s).log ++ (loop step n s').log⟩ := by
  rw [loop_succ]
  simp [bind,h]

theorem loop_of_inr {s : σ} {r : ρ} (n : Nat) (h : (step s).val = some (.inr r)) :
    loop step (n+1) s = ⟨some r,(step s).log⟩ := by
  rw [loop_succ]
  simp [bind,h,pure]

theorem loop_of_none {s : σ} (n : Nat) (h : (step s).val = none) :
    loop step (n+1) s = ⟨none,(step s).log⟩ := by
  rw [loop_succ]
  simp [bind,h]

/-- Partial correctness: a result comes from the guard of a reached state. -/
theorem loop_exit {n : Nat} {s : σ} {r : ρ} (h : (loop step n s).val = some r) :
    ∃ s', Reaches step s s' ∧ (step s').val = some (.inr r) := by
  induction n generalizing s with
  | zero => simp [loop] at h
  | succ n ih =>
    cases hs : (step s).val with
    | none => simp [loop_of_none n hs] at h
    | some x =>
      cases x with
      | inl s' =>
        rw [loop_of_inl n hs] at h
        obtain ⟨s'',hr,he⟩ := ih h
        exact ⟨s'',hr.head hs,he⟩
      | inr r' =>
        simp only [loop_of_inr n hs,Option.some.injEq] at h
        exact ⟨s,.refl s,h ▸ hs⟩

/-- Every event of a loop is an event of one of its rounds, and that round is
part of the loop. -/
theorem loop_round {n : Nat} {s : σ} {e : ε} (h : e ∈ (loop step n s).log) :
    ∃ s', Reaches step s s' ∧ e ∈ (step s').log ∧ (step s').log ⊆ (loop step n s).log := by
  induction n generalizing s with
  | zero => simp [loop] at h
  | succ n ih =>
    cases hs : (step s).val with
    | none => exact ⟨s,.refl s,by simpa [loop_of_none n hs] using h,by simp [loop_of_none n hs]⟩
    | some x =>
      cases x with
      | inr r =>
        exact ⟨s,.refl s,by simpa [loop_of_inr n hs] using h,by simp [loop_of_inr n hs]⟩
      | inl s' =>
        simp only [loop_of_inl n hs,List.mem_append] at h ⊢
        rcases h with h | h
        · exact ⟨s,.refl s,h,List.subset_append_left _ _⟩
        · obtain ⟨s'',hr,he,hsub⟩ := ih h
          exact ⟨s'',hr.head hs,he,List.Subset.trans hsub (List.subset_append_right _ _)⟩

theorem loop_log {n : Nat} {s : σ} {e : ε} (h : e ∈ (loop step n s).log) :
    ∃ s', Reaches step s s' ∧ e ∈ (step s').log := by
  obtain ⟨s',hr,he,-⟩ := loop_round h
  exact ⟨s',hr,he⟩

theorem only_loop {E : ε → Prop} {I : σ → Prop}
    (hstep : ∀ s s', I s → (step s).val = some (.inl s') → I s')
    (honly : ∀ s, I s → Only E (step s)) {s : σ} (hi : I s) (n : Nat) :
    Only E (loop step n s) := by
  intro e he
  obtain ⟨s',hr,he⟩ := loop_log he
  exact honly s' (hr.invariant hstep hi) e he

/-- Total correctness: with a measure that every round lowers, fuel above the
measure is enough. -/
theorem loop_total {I : σ → Prop} {μ : σ → Nat}
    (hstep : ∀ s, I s → ∃ x, (step s).val = some x ∧
      ∀ s', x = .inl s' → I s' ∧ μ s' < μ s)
    {n : Nat} {s : σ} (hi : I s) (hn : μ s < n) :
    ∃ r, (loop step n s).val = some r := by
  induction n generalizing s with
  | zero => omega
  | succ n ih =>
    obtain ⟨x,hx,hnext⟩ := hstep s hi
    cases x with
    | inr r => exact ⟨r,by rw [loop_of_inr n hx]⟩
    | inl s' =>
      obtain ⟨hi',hlt⟩ := hnext s' rfl
      rw [loop_of_inl n hx]
      exact ih hi' (by omega)

theorem loop_unstuck {n : Nat} {s s' : σ} {r : ρ} (hr : (loop step n s).val = some r)
    (hs : Reaches step s s') : ∃ x, (step s').val = some x := by
  induction hs using Relation.ReflTransGen.head_induction_on generalizing n with
  | refl =>
    cases n with
    | zero => cases hr
    | succ n =>
      cases hv : (step s').val with
      | some x => exact ⟨x,rfl⟩
      | none =>
        rw [loop_of_none n hv] at hr
        cases hr
  | head hv _ ih =>
    cases n with
    | zero => cases hr
    | succ n =>
      rw [loop_of_inl n hv] at hr
      exact ih hr

/-- Where every round lowers the measure, a loop ends exactly when no round of it is stuck. -/
theorem loop_total_iff {I : σ → Prop} {μ : σ → Nat}
    (hstep : ∀ s s', I s → (step s).val = some (.inl s') → I s' ∧ μ s' < μ s)
    {n : Nat} {s : σ} (hi : I s) (hn : μ s < n) :
    (∃ r, (loop step n s).val = some r) ↔
      ∀ s', Reaches step s s' → ∃ x, (step s').val = some x := by
  constructor
  · rintro ⟨r,hr⟩ s' hs
    exact loop_unstuck hr hs
  · intro h
    refine loop_total (I := fun s' => I s' ∧ Reaches step s s') (fun s' hs => ?_) ⟨hi,.refl s⟩ hn
    obtain ⟨x,hx⟩ := h s' hs.2
    refine ⟨x,hx,fun s'' he => ?_⟩
    obtain ⟨hi',hlt⟩ := hstep s' s'' hs.1 (he ▸ hx)
    exact ⟨⟨hi',hs.2.tail (he ▸ hx)⟩,hlt⟩

/-- The rounds of `step'` are rounds of `step`, some of them stuck at their end. -/
def Restricts (step' step : σ → Run ε (σ ⊕ ρ)) : Prop :=
  ∀ s, (step' s).log = (step s).log ∧ ∀ x, (step' s).val = some x → (step s).val = some x

theorem restricts_guarded (ok : σ ⊕ ρ → ε → Bool) :
    Restricts (fun s => (step s).guarded ok) step :=
  fun _ => ⟨rfl,fun _ h => (guarded_eq_some.mp h).1⟩

namespace Restricts
variable {step' : σ → Run ε (σ ⊕ ρ)}

theorem reaches (h : Restricts step' step) {s s' : σ} (hs : Reaches step' s s') :
    Reaches step s s' := by
  induction hs with
  | refl => exact .refl s
  | tail _ hv ih => exact ih.tail ((h _).2 _ hv)

theorem log_prefix (h : Restricts step' step) (n : Nat) (s : σ) :
    (loop step' n s).log <+: (loop step n s).log := by
  induction n generalizing s with
  | zero => exact List.prefix_rfl
  | succ n ih =>
    obtain ⟨hlog,hval⟩ := h s
    cases hv : (step' s).val with
    | none =>
      rw [loop_of_none n hv,hlog,loop_succ,log_bind]
      exact List.prefix_append _ _
    | some x =>
      cases x with
      | inl s' =>
        rw [loop_of_inl n hv,loop_of_inl n (hval _ hv),hlog]
        exact (List.prefix_append_right_inj _).mpr (ih s')
      | inr r =>
        rw [loop_of_inr n hv,loop_of_inr n (hval _ hv)]
        exact hlog ▸ List.prefix_rfl

theorem loop_eq (h : Restricts step' step) {s : σ}
    (hall : ∀ s', Reaches step' s s' → ∃ x, (step' s').val = some x) (n : Nat) :
    loop step' n s = loop step n s := by
  induction n generalizing s with
  | zero => rfl
  | succ n ih =>
    obtain ⟨hlog,hval⟩ := h s
    obtain ⟨x,hv⟩ := hall s (.refl s)
    cases x with
    | inl s' =>
      rw [loop_of_inl n hv,loop_of_inl n (hval _ hv),hlog,ih fun s'' hs => hall s'' (hs.head hv)]
    | inr r => rw [loop_of_inr n hv,loop_of_inr n (hval _ hv),hlog]

theorem reaches_iff (h : Restricts step' step) {s s' : σ}
    (hall : ∀ s', Reaches step' s s' → ∃ x, (step' s').val = some x) :
    Reaches step' s s' ↔ Reaches step s s' := by
  refine ⟨h.reaches,fun hs => ?_⟩
  induction hs with
  | refl => exact .refl s
  | tail _ hv ih =>
    obtain ⟨x,hx⟩ := hall _ ih
    have hx' := (h _).2 x hx
    rw [hv,Option.some.injEq] at hx'
    exact ih.tail (hx' ▸ hx)

end Restricts

/-- The states whose round a loop runs, in order: one for each time its guard is
evaluated. -/
def heads (step : σ → Run ε (σ ⊕ ρ)) : Nat → σ → List σ
  | 0,_ => []
  | n+1,s => s :: match (step s).val with
    | some (.inl s') => heads step n s'
    | _ => []

theorem heads_of_inl {s s' : σ} (n : Nat) (h : (step s).val = some (.inl s')) :
    heads step (n+1) s = s :: heads step n s' := by simp [heads,h]

theorem heads_of_stop {s : σ} (n : Nat) (h : ∀ s', (step s).val ≠ some (.inl s')) :
    heads step (n+1) s = [s] := by
  rw [heads]
  split
  · exact absurd ‹_› (h _)
  · rfl

theorem loop_log_heads (n : Nat) (s : σ) :
    (loop step n s).log = (heads step n s).flatMap fun s => (step s).log := by
  induction n generalizing s with
  | zero => rfl
  | succ n ih =>
    cases hs : (step s).val with
    | none =>
      rw [loop_of_none n hs,heads_of_stop n (by simp [hs])]
      simp
    | some x =>
      cases x with
      | inl s' => rw [loop_of_inl n hs,heads_of_inl n hs,List.flatMap_cons,ih]
      | inr r =>
        rw [loop_of_inr n hs,heads_of_stop n (by simp [hs])]
        simp

theorem mem_heads {n : Nat} {s s' : σ} (h : s' ∈ heads step n s) : Reaches step s s' := by
  induction n generalizing s with
  | zero => simp [heads] at h
  | succ n ih =>
    by_cases hs : ∃ s₁, (step s).val = some (.inl s₁)
    · obtain ⟨s₁,hs⟩ := hs
      rw [heads_of_inl n hs] at h
      rcases List.mem_cons.mp h with rfl | h
      · exact .refl s'
      · exact (ih h).head hs
    · rw [heads_of_stop n fun s₁ h₁ => hs ⟨s₁,h₁⟩,List.mem_singleton] at h
      rw [h]
      exact .refl s

theorem heads_pairwise {I : σ → Prop} {f : σ → Nat}
    (hstep : ∀ s s', I s → (step s).val = some (.inl s') → I s' ∧ f s ≤ f s')
    {s : σ} (hi : I s) (n : Nat) :
    (heads step n s).Pairwise fun s s' => f s ≤ f s' := by
  induction n generalizing s with
  | zero => exact .nil
  | succ n ih =>
    by_cases hs : ∃ s₁, (step s).val = some (.inl s₁)
    · obtain ⟨s₁,hs⟩ := hs
      obtain ⟨hi₁,hle⟩ := hstep s s₁ hi hs
      rw [heads_of_inl n hs]
      refine List.pairwise_cons.mpr ⟨fun s₂ h₂ => Nat.le_trans hle ?_,ih hi₁⟩
      have hinv : I s₂ ∧ f s₁ ≤ f s₂ := by
        refine (mem_heads h₂).invariant (I := fun s₂ => I s₂ ∧ f s₁ ≤ f s₂) ?_
          ⟨hi₁,Nat.le_refl _⟩
        rintro s₃ s₄ ⟨hi₃,hle₃⟩ h₄
        obtain ⟨hi₄,hle₄⟩ := hstep s₃ s₄ hi₃ h₄
        exact ⟨hi₄,Nat.le_trans hle₃ hle₄⟩
      exact hinv.2
    · rw [heads_of_stop n fun s₁ h₁ => hs ⟨s₁,h₁⟩]
      exact List.pairwise_singleton _ _

/-- Rounds that each take one from a potential are no more than the potential. -/
theorem countP_heads_le {I : σ → Prop} {P : σ → Bool} {μ : σ → Nat}
    (hpos : ∀ s, I s → P s = true → 0 < μ s)
    (hstep : ∀ s s', I s → (step s).val = some (.inl s') →
      I s' ∧ μ s' + (if P s = true then 1 else 0) ≤ μ s)
    {s : σ} (hi : I s) (n : Nat) : (heads step n s).countP P ≤ μ s := by
  induction n generalizing s with
  | zero => exact Nat.zero_le _
  | succ n ih =>
    by_cases hs : ∃ s₁, (step s).val = some (.inl s₁)
    · obtain ⟨s₁,hs⟩ := hs
      obtain ⟨hi₁,hle⟩ := hstep s s₁ hi hs
      have hrest := ih hi₁
      rw [heads_of_inl n hs,List.countP_cons]
      omega
    · rw [heads_of_stop n fun s₁ h₁ => hs ⟨s₁,h₁⟩,List.countP_singleton]
      split
      · exact hpos s hi ‹_›
      · exact Nat.zero_le _

/-- Where every round pays for its events out of a potential, the whole loop does, and
what is left at its exit has not been spent. -/
theorem loop_countP_le {I : σ → Prop} {P : ε → Bool} {μ : σ → Nat} {ν : ρ → Nat}
    (hcost : ∀ s, I s → (step s).log.countP P ≤ μ s)
    (hstep : ∀ s s', I s → (step s).val = some (.inl s') →
      I s' ∧ (step s).log.countP P + μ s' ≤ μ s)
    (hexit : ∀ s r, I s → (step s).val = some (.inr r) → (step s).log.countP P + ν r ≤ μ s)
    {s : σ} (hi : I s) (n : Nat) :
    (loop step n s).log.countP P ≤ μ s ∧
      ∀ r, (loop step n s).val = some r → (loop step n s).log.countP P + ν r ≤ μ s := by
  induction n generalizing s with
  | zero => exact ⟨Nat.zero_le _,fun r hr => by cases hr⟩
  | succ n ih =>
    cases hs : (step s).val with
    | none =>
      rw [loop_of_none n hs]
      exact ⟨hcost s hi,fun r hr => by cases hr⟩
    | some x =>
      cases x with
      | inl s' =>
        obtain ⟨hi',hle⟩ := hstep s s' hi hs
        obtain ⟨hall,hend⟩ := ih hi'
        rw [loop_of_inl n hs,List.countP_append]
        refine ⟨by omega,fun r hr => ?_⟩
        have hend := hend r hr
        omega
      | inr r =>
        rw [loop_of_inr n hs]
        refine ⟨hcost s hi,fun r' hr => ?_⟩
        obtain rfl := Option.some.inj hr
        exact hexit s r hi hs

end Run
end Runs
