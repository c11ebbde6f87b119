import Mathlib.Data.List.Induction
import Mathlib.Data.List.Nodup
import Mathlib.Logic.Function.Basic
set_option autoImplicit false

/-! Nodes that name others by key: a tree is a node from which every path leads to a
node of its own. -/
namespace Links
open Function
variable {A C : Type} {child : A → C → Option A} {r a b x y : A} {c : C} {u v w : List C}

def follow (child : A → C → Option A) (a : A) (v : List C) : Option A := v.foldlM child a

@[simp] theorem follow_nil (child : A → C → Option A) (a : A) : follow child a [] = some a := rfl

@[simp] theorem follow_cons (child : A → C → Option A) (a : A) (c : C) (v : List C) :
    follow child a (c::v) = (child a c).bind fun b => follow child b v := rfl

theorem follow_append (child : A → C → Option A) (a : A) (v w : List C) :
    follow child a (v++w) = (follow child a v).bind fun b => follow child b w :=
  List.foldlM_append

theorem follow_snoc (h : follow child r u = some a) (c : C) :
    follow child r (u++[c]) = child a c := by
  rw [follow_append,h,Option.bind_some,follow_cons]
  cases child a c <;> rfl

theorem follow_trans (hv : follow child a v = some x) (hu : follow child x u = some y) :
    follow child a (v++u) = some y := by
  rw [follow_append,hv]
  exact hu

/-- No two paths from `r` lead to one node. -/
def Tree (child : A → C → Option A) (r : A) : Prop :=
  ∀ v w x, follow child r v = some x → follow child r w = some x → v = w

theorem Tree.below (ht : Tree child r) (hu : follow child r u = some a) : Tree child a := by
  have hup : ∀ v, follow child r (u++v) = follow child a v := fun v => by
    rw [follow_append,hu]
    rfl
  intro v w x hv hw
  rw [← hup] at hv hw
  exact List.append_cancel_left (ht _ _ x hv hw)

theorem Tree.no_return (ht : Tree child r) (h : follow child r u = some r) : u = [] :=
  ht u [] r h rfl

section
variable [DecidableEq A] [DecidableEq C]

/-- The node `b`, without children, becomes a child of `a`. -/
def hang (child : A → C → Option A) (a : A) (c : C) (b : A) : A → C → Option A :=
  update (update child a (update (child a) c (some b))) b fun _ => none

theorem hang_other (hx : x ≠ b) : hang child a c b x =
    if x = a then update (child a) c (some b) else child x := by
  rw [hang,update_of_ne hx]
  exact update_apply ..

theorem follow_hang (ht : Tree child r) (hu : follow child r u = some a) (hc : child a c = none)
    (hb : ∀ v, follow child r v ≠ some b) : follow (hang child a c b) r v =
      if v = u++[c] then some b else follow child r v := by
  induction v using List.reverseRecOn with
  | nil => rw [if_neg (by simp)]; rfl
  | append_singleton v d ih =>
    have hnone : follow child r (u++[c]) = none := by rw [follow_snoc hu,hc]
    by_cases hv : v = u++[c]
    · -- the new node has no children
      rw [if_pos hv] at ih
      rw [follow_snoc ih,hang,update_self,if_neg (by simp [hv]),follow_append,hv,hnone]
      rfl
    · rw [if_neg hv] at ih
      cases hx : follow child r v with
      | none =>
        have hne : v++[d] ≠ u++[c] := fun he => by
          obtain ⟨rfl,-⟩ := List.append_inj' he rfl
          rw [hu] at hx
          cases hx
        rw [if_neg hne,follow_append,follow_append,ih,hx]
        rfl
      | some x =>
        have hxb : x ≠ b := fun he => hb v (he ▸ hx)
        rw [follow_snoc (ih.trans hx),follow_snoc hx,hang_other hxb]
        by_cases hxa : x = a
        · obtain rfl := ht v u x hx (hxa ▸ hu)
          subst hxa
          rw [if_pos rfl,update_apply]
          simp
        · have hne : v++[d] ≠ u++[c] := fun he => by
            obtain ⟨rfl,-⟩ := List.append_inj' he rfl
            rw [hu] at hx
            exact hxa (Option.some.inj hx).symm
          rw [if_neg hxa,if_neg hne]

theorem Tree.hang (ht : Tree child r) (hu : follow child r u = some a) (hc : child a c = none)
    (hb : ∀ v, follow child r v ≠ some b) : Tree (hang child a c b) r := by
  intro v w x hv hw
  rw [follow_hang ht hu hc hb] at hv hw
  by_cases hvu : v = u++[c] <;> by_cases hwu : w = u++[c]
  · rw [hvu,hwu]
  · rw [if_pos hvu] at hv
    rw [if_neg hwu,← hv] at hw
    exact absurd hw (hb w)
  · rw [if_pos hwu] at hw
    rw [if_neg hvu,← hw] at hv
    exact absurd hv (hb v)
  · rw [if_neg hvu] at hv
    rw [if_neg hwu] at hw
    exact ht v w x hv hw

end

/-- The nodes below `a`, down to a depth of `d`, each behind those below it. -/
def postorder (child : A → C → Option A) (keys : List C) : Nat → A → List A
  | 0,_ => []
  | d+1,a => (keys.flatMap fun c => (child a c).elim [] (postorder child keys d)) ++ [a]

variable {keys : List C} {d : Nat}

theorem mem_postorder (hkeys : ∀ c, c ∈ keys) :
    x ∈ postorder child keys d a ↔ ∃ v, v.length < d ∧ follow child a v = some x := by
  induction d generalizing a with
  | zero => simp [postorder]
  | succ d ih =>
    rw [postorder,List.mem_append,List.mem_flatMap,List.mem_singleton]
    constructor
    · rintro (⟨c,-,hx⟩ | rfl)
      · cases hc : child a c with
        | none => simp [hc] at hx
        | some b =>
          rw [hc,Option.elim_some] at hx
          obtain ⟨v,hv,hx⟩ := ih.mp hx
          exact ⟨c::v,Nat.succ_lt_succ hv,by rw [follow_cons,hc]; exact hx⟩
      · exact ⟨[],Nat.succ_pos d,rfl⟩
    · rintro ⟨v,hv,hx⟩
      cases v with
      | nil => exact .inr (Option.some.inj hx).symm
      | cons c v =>
        obtain ⟨b,hb,hx⟩ := Option.bind_eq_some_iff.mp hx
        refine .inl ⟨c,hkeys c,?_⟩
        rw [hb,Option.elim_some]
        exact ih.mpr ⟨v,Nat.lt_of_succ_lt_succ hv,hx⟩

theorem mem_part (hkeys : ∀ c, c ∈ keys)
    (hx : x ∈ (child a c).elim [] (postorder child keys d)) :
    ∃ v, follow child a (c::v) = some x := by
  cases hc : child a c with
  | none => simp [hc] at hx
  | some b =>
    rw [hc,Option.elim_some] at hx
    obtain ⟨v,-,hx⟩ := (mem_postorder hkeys).mp hx
    exact ⟨v,by rw [follow_cons,hc]; exact hx⟩

theorem postorder_upwards (hkeys : ∀ c, c ∈ keys) (hnodup : keys.Nodup) (ht : Tree child a) :
    (postorder child keys d a).Pairwise fun x y => ∀ u, follow child x u ≠ some y := by
  induction d generalizing a with
  | zero => exact .nil
  | succ d ih =>
    rw [postorder,List.pairwise_append]
    refine ⟨List.pairwise_flatMap.mpr ⟨fun c _ => ?_,hnodup.imp ?_⟩,List.pairwise_singleton _ a,?_⟩
    · cases hc : child a c with
      | none => exact .nil
      | some b =>
        have hb : follow child a [c] = some b := by rw [follow_cons,hc]; rfl
        exact ih (ht.below hb)
    · rintro c c' hne x hx y hy u hu
      obtain ⟨v,hv⟩ := mem_part hkeys hx
      obtain ⟨w,hw⟩ := mem_part hkeys hy
      exact hne (List.cons.inj (ht _ _ y (follow_trans hv hu) hw)).1
    · rintro x hx y hy u hu
      obtain ⟨c,-,hx⟩ := List.mem_flatMap.mp hx
      obtain ⟨v,hv⟩ := mem_part hkeys hx
      rw [List.mem_singleton.mp hy] at hu
      exact absurd (ht.no_return (follow_trans hv hu)) (List.cons_ne_nil c (v++u))

theorem nodup_postorder (hkeys : ∀ c, c ∈ keys) (hnodup : keys.Nodup) (ht : Tree child a) :
    (postorder child keys d a).Nodup :=
  (postorder_upwards hkeys hnodup ht).imp fun h he => h [] (congrArg some he)

end Links
