import SSearcher.Amend
set_option autoImplicit false

namespace SSearcher
open Runs Memory

/-- The amendments worker_writebuffer makes for further matches of a line, with its
`nll` and `cnt`. -/
def amendAll (c : Nat) : List Nat → Nat → Nat → Buffer → Prog (Nat × Buffer)
  | [],nll,_,b => return (nll,b)
  | o::os,nll,cnt,b => do
    let (n,b) ← amendlineColorBuffer b nll o c cnt
    amendAll c os ((nll+n) % 2^64) (cnt+1) b

def highlightLine (b : Buffer) (line : Ptr) (c o : Nat) (os : List Nat) :
    Prog (Nat × Buffer) := do
  let (nll,b) ← writelineColorBuffer b line 1024 o c
  amendAll c os nll 1 b

/-- Matches of `c` columns start at `os`, from left to right, none before column `e`,
and none overlaps another or the end of the `n` columns. -/
def Columns (n c : Nat) : Nat → List Nat → Prop
  | e,[] => e ≤ n
  | e,o::os => e ≤ o ∧ Columns n c (o+c) os

instance decidableColumns (n c : Nat) : (e : Nat) → (os : List Nat) → Decidable (Columns n c e os)
  | e,[] => inferInstanceAs (Decidable (e ≤ n))
  | e,o::os =>
    have := decidableColumns n c (o+c) os
    inferInstanceAs (Decidable (e ≤ o ∧ Columns n c (o+c) os))

/-- The columns of the line from `e` on, with each match wrapped. -/
def wrapped (line : Ptr) (n c : Nat) : Nat → List Nat → List UInt8
  | e,[] => slice line e (n-e)
  | e,o::os => slice line e (o-e) ++ hiliColor ++ slice line o c ++ resetColor ++
    wrapped line n c (o+c) os

variable {line : Ptr} {n c : Nat}

theorem Columns.le {e : Nat} {os : List Nat} (h : Columns n c e os) : e ≤ n := by
  induction os generalizing e with
  | nil => exact h
  | cons o os ih =>
    have hle := ih h.2
    have he := h.1
    omega

theorem Columns.ge {e o : Nat} {os : List Nat} (h : Columns n c e os) (ho : o ∈ os) : e ≤ o := by
  induction os generalizing e with
  | nil => simp at ho
  | cons o' os ih =>
    have he := h.1
    rcases List.mem_cons.mp ho with rfl | ho
    · exact he
    · have hle := ih h.2 ho
      omega

theorem Columns.length_wrapped {e : Nat} {os : List Nat} (h : Columns n c e os) :
    (wrapped line n c e os).length = n-e+23*os.length := by
  induction os generalizing e with
  | nil => simp [wrapped]
  | cons o os ih =>
    have hle := h.2.le
    have he := h.1
    simp only [wrapped,List.length_append,length_slice,length_hiliColor,length_resetColor,ih h.2,
      List.length_cons]
    omega

/-- A buffer whose last `nll` bytes are a line wrapped up to column `e`, which holds
`cnt` matches before it. -/
structure Line (line : Ptr) (n cnt nll e : Nat) (l done : List UInt8) (b : Buffer) : Prop where
  contents : b.contents = l ++ done ++ slice line e (n-e)
  length : done.length = e+23*cnt
  nll : nll = n+23*cnt
  tail : b.TailZero
  small : b.cap < 2^64

theorem Line.off {cnt nll e : Nat} {l done : List UInt8} {b : Buffer}
    (h : Line line n cnt nll e l done b) (he : e ≤ n) : b.off = l.length+nll := by
  have hlen := congrArg List.length h.contents
  have hdone := h.length
  have hnll := h.nll
  simp only [Buffer.length_contents,List.length_append,length_slice] at hlen
  omega

section Line
variable {cnt nll e o : Nat} {l done : List UInt8} {b : Buffer}

theorem Line.at (h : Line line n cnt nll e l done b) {k : Nat} (hk : k < n-e) :
    b.buf (l.length+done.length+k) = line (e+k) := by
  have hlast := (slice_eq_append (m := b.buf) h.contents).2
  rw [length_slice,Nat.zero_add,List.length_append] at hlast
  exact slice_inj hlast hk

theorem Line.slice_at (h : Line line n cnt nll e l done b) {k m : Nat} (hk : k+m ≤ n-e) :
    slice b.buf (l.length+done.length+k) m = slice line (e+k) m := by
  refine slice_congr fun i hi => ?_
  rw [Nat.add_assoc,h.at (by omega),Nat.add_assoc]

theorem Line.slice_start (h : Line line n cnt nll e l done b) {k : Nat} (hk : k ≤ n-e) :
    slice b.buf 0 (l.length+done.length+k) = l ++ done ++ slice line e k := by
  have hfirst := (slice_eq_append (m := b.buf) h.contents).1
  have hsub := h.slice_at (k := 0) (m := k) (by omega)
  rw [Nat.add_zero,Nat.add_zero] at hsub
  rw [slice_add,Nat.zero_add,hsub,← List.length_append,hfirst]

theorem Line.amendAt (h : Line line n cnt nll e l done b) (htext : ∀ i, i < n → line i ≠ 0)
    (heo : e ≤ o) (hon : o+c ≤ n) (hroom : b.off < b.cap) :
    AmendAt b nll o c cnt (l.length+done.length+(o-e)) := by
  have hoff := h.off (by omega)
  have hdone := h.length
  have hnll := h.nll
  refine ⟨by omega,by omega,by omega,fun i hi hlt => ?_,h.tail _ (Nat.le_refl _) hroom,hroom,
    h.small⟩
  obtain ⟨k,rfl⟩ : ∃ k, i = l.length+done.length+k := ⟨i-(l.length+done.length),by omega⟩
  rw [h.at (by omega)]
  exact htext _ (by omega)

theorem Line.step (h : Line line n cnt nll e l done b) (htext : ∀ i, i < n → line i ≠ 0)
    (heo : e ≤ o) (hon : o+c ≤ n) (hroom : b.off+23 ≤ b.cap) (hshort : n-(o+c) < 23)
    (hc : c ≤ 19) (hnll : nll+23 < 2^64) :
    ∃ b', (amendlineColorBuffer b nll o c cnt).val = some (23,b') ∧ b'.off = b.off+23 ∧
      b'.cap = b.cap ∧ Line line n (cnt+1) ((nll+23) % 2^64) (o+c) l
        (done ++ slice line e (o-e) ++ hiliColor ++ slice line o c ++ resetColor) b' := by
  have hoff := h.off (by omega)
  have hdone := h.length
  have hnl := h.nll
  have hat := h.amendAt (c := c) htext heo hon (by omega)
  have htail : b.off-(l.length+done.length+(o-e)+c) = n-(o+c) := by omega
  obtain ⟨b',hv,ham⟩ := amendlineColorBuffer_spec hat (by omega) hc
  have hcap : b'.cap = b.cap := ham.cap.eq_of_le hroom
  refine ⟨b',hv,ham.off,hcap,?_,?_,?_,ham.tail h.tail,hcap ▸ h.small⟩
  · rw [ham.contents,htail,h.slice_start (by omega),h.slice_at (by omega),
      Nat.add_assoc _ (o-e) c,h.slice_at (by omega)]
    rw [show e+(o-e) = o by omega,show e+(o-e+c) = o+c by omega]
    simp only [List.append_assoc]
  · simp only [List.length_append,length_slice,length_hiliColor,length_resetColor]
    omega
  · rw [Nat.mod_eq_of_lt hnll]
    omega

theorem Line.run (h : Line line n cnt nll e l done b) (htext : ∀ i, i < n → line i ≠ 0)
    {os : List Nat} (hcols : Columns n c e os) (hroom : b.off+23*os.length < b.cap)
    (hshort : ∀ o, o ∈ os → n-(o+c) < 23 ∧ c ≤ 19) :
    ∃ b', (amendAll c os nll cnt b).val = some (nll+23*os.length,b') ∧
      b'.contents = l ++ done ++ wrapped line n c e os := by
  have hoff := h.off hcols.le
  have hsmall := h.small
  induction os generalizing cnt nll e done b with
  | nil => exact ⟨b,rfl,h.contents⟩
  | cons o os ih =>
    obtain ⟨heo,hrest⟩ := hcols
    rw [List.length_cons] at hroom
    obtain ⟨htail,hc⟩ := hshort o (by simp)
    obtain ⟨b₁,hv,hoff₁,hcap₁,h₁⟩ := h.step htext heo hrest.le (by omega) htail hc (by omega)
    obtain ⟨b',hv',hcontents⟩ := ih h₁ hrest (by omega) (fun x hx => hshort x (by simp [hx]))
      (h₁.off hrest.le) h₁.small
    refine ⟨b',?_,?_⟩
    · simp only [amendAll,Run.val_bind,hv,Option.bind_some,hv',List.length_cons]
      rw [Nat.mod_eq_of_lt (by omega)]
      simp only [Option.some.injEq,Prod.mk.injEq,and_true]
      omega
    · rw [hcontents,wrapped]
      simp only [List.append_assoc]

end Line

structure MatchLine (line : Ptr) (n c o : Nat) (os : List Nat) : Prop where
  length : n ≤ 1024
  text : ∀ i, i < n → isText (line i) = true
  stop : isText (line n) = false
  colorlen : 1 ≤ c
  columns : Columns n c 0 (o::os)

variable {o : Nat} {os : List Nat} {b : Buffer}

theorem MatchLine.recordText_eq (h : MatchLine line n c o os) :
    recordText line 1024 o c = slice line 0 o ++ hiliColor ++ slice line o c ++ resetColor ++
      slice line (o+c) (n-(o+c)) := by
  have hlen := h.length
  have hle := h.columns.2.le
  have hlimit : restLimit 1024 o c = 1024-o-c := by
    have hsub : subSize 1024 o = 1024-o := subSize_of_le (by omega) (by decide)
    rw [restLimit,hsub,subSize_of_le (by omega) (by omega)]
  have hrun : TextRun line (o+c) (restLimit 1024 o c) (n-(o+c)) := by
    refine ⟨by omega,fun j hj => h.text _ (by omega),fun _ => ?_⟩
    rw [Nat.add_sub_cancel' hle]
    exact h.stop
  rw [recordText,hrun.lineRest_eq]

theorem MatchLine.ne_zero (h : MatchLine line n c o os) (i : Nat) (hi : i < n) : line i ≠ 0 :=
  (isText_iff.mp (h.text i hi)).2

theorem MatchLine.first (h : MatchLine line n c o os) (htail : b.TailZero) (hsmall : b.cap < 2^64)
    (hroom : b.off+1047 ≤ b.cap) :
    ∃ b₁, (writelineColorBuffer b line 1024 o c).val = some (n+23,b₁) ∧ b₁.off = b.off+n+23 ∧
      b₁.cap = b.cap ∧ Line line n 1 (n+23) (o+c) b.contents
        (slice line 0 o ++ hiliColor ++ slice line o c ++ resetColor) b₁ := by
  have hlen := h.length
  have hle := h.columns.2.le
  have htext := h.recordText_eq
  have hlength : (recordText line 1024 o c).length = n+23 := by
    simp only [htext,List.length_append,length_slice,length_hiliColor,length_resetColor]
    omega
  have hrest : (lineRest line (o+c) (restLimit 1024 o c)).length ≤
      (recordText line 1024 o c).length := by
    simp only [recordText,List.length_append]
    omega
  obtain ⟨b₁,hv,ha⟩ := writelineColorBuffer_spec (b := b) (by omega)
    (show (lineRest line (o+c) (restLimit 1024 o c)).length < 2^31 by omega) (by omega)
  have hcap := ha.cap.eq_of_le (by omega)
  refine ⟨b₁,by rw [hv,hlength],by rw [ha.off,hlength]; omega,hcap,?_,?_,rfl,ha.tail htail,
    hcap ▸ hsmall⟩
  · rw [ha.contents,htext]
    simp only [List.append_assoc]
  · simp only [List.length_append,length_slice,length_hiliColor,length_resetColor]
    omega

theorem highlightLine_val {b₁ : Buffer}
    (hv : (writelineColorBuffer b line 1024 o c).val = some (n+23,b₁)) :
    (highlightLine b line c o os).val = (amendAll c os (n+23) 1 b₁).val := by
  simp only [highlightLine,Run.val_bind,hv,Option.bind_some]

theorem MatchLine.highlight_none {o₁ : Nat} (h : MatchLine line n c o (o₁::os))
    (htail : b.TailZero) (hsmall : b.cap < 2^64) (hroom : b.off+1070 < b.cap)
    (hlong : 23 ≤ n-(o₁+c) ∨ 19 < c) : (highlightLine b line c o (o₁::os)).val = none := by
  have hlen := h.length
  obtain ⟨-,hge,hrest⟩ := h.columns
  have hin := hrest.le
  obtain ⟨b₁,hv,hoff,hcap,h₁⟩ := h.first htail hsmall (by omega)
  have hat := h₁.amendAt (c := c) h.ne_zero hge hin (by omega)
  have hdone := h₁.length
  have hlast := h₁.off (by omega)
  have hnone := amendlineColorBuffer_none hat (by omega)
  rw [highlightLine_val hv]
  simp [amendAll,hnone]

/-- The calls for one line wrap all its matches exactly when fewer than 23 bytes follow
its second match and memcpy is not asked to move a pattern onto itself. -/
theorem highlight_iff (h : MatchLine line n c o os) (htail : b.TailZero) (hsmall : b.cap < 2^64)
    (hroom : b.off+23*(os.length+1)+1024+1 ≤ b.cap) :
    (∃ nll b', (highlightLine b line c o os).val = some (nll,b') ∧
      b'.contents = b.contents ++ wrapped line n c 0 (o::os) ∧
      nll = (wrapped line n c 0 (o::os)).length) ↔
    ∀ o₁, os.head? = some o₁ → n-(o₁+c) < 23 ∧ c ≤ 19 := by
  have hlen := h.length
  constructor
  · rintro ⟨nll,b',hb',-,-⟩ o₁ ho₁
    cases os with
    | nil => cases ho₁
    | cons o₂ os =>
      cases ho₁
      rw [List.length_cons] at hroom
      by_contra hno
      rw [h.highlight_none htail hsmall (by omega) (by omega)] at hb'
      cases hb'
  · intro hfirst
    have hcols := h.columns
    have hshort : ∀ x, x ∈ os → n-(x+c) < 23 ∧ c ≤ 19 := by
      cases os with
      | nil => simp
      | cons o₁ os =>
        obtain ⟨ht,hc⟩ := hfirst o₁ rfl
        intro x hx
        rcases List.mem_cons.mp hx with rfl | hx
        · exact ⟨ht,hc⟩
        · have hge := hcols.2.2.ge hx
          exact ⟨by omega,hc⟩
    obtain ⟨b₁,hv,hoff,hcap,h₁⟩ := h.first htail hsmall (by omega)
    obtain ⟨b',hb',hcontents⟩ := h₁.run h.ne_zero hcols.2 (by omega) hshort
    refine ⟨_,b',(highlightLine_val hv).trans hb',?_,?_⟩
    · rw [hcontents,wrapped]
      simp [List.append_assoc]
    · rw [hcols.length_wrapped,List.length_cons]
      omega

theorem highlight_abab : ∃ nll b', (highlightLine freshBuffer (ofList [97,98,97,98,10]) 1 1
    [3]).val = some (nll,b') ∧ b'.contents =
      [97] ++ hiliColor ++ [98] ++ resetColor ++ ([97] ++ hiliColor ++ [98] ++ resetColor) := by
  have hline : MatchLine (ofList [97,98,97,98,10]) 4 1 1 [3] :=
    ⟨by decide,by decide,by decide,by decide,by decide⟩
  have hroom : freshBuffer.off+23*([3].length+1)+1024+1 ≤ freshBuffer.cap := by
    simp [freshBuffer,defaultSize]
  obtain ⟨nll,b',hv,hcontents,-⟩ := (highlight_iff (b := freshBuffer) hline (fun _ _ _ => rfl)
    (by decide) hroom).mpr fun o₁ ho₁ => by cases ho₁; decide
  exact ⟨nll,b',hv,hcontents⟩

/-- "bb" and 23 more bytes: strcpy does not end. -/
theorem highlight_stuck : (initBuffer freshBuffer).val = some freshBuffer ∧
    MatchLine (ofList ([98,98] ++ List.replicate 23 97)) 25 1 0 [1] ∧
    (highlightLine freshBuffer (ofList ([98,98] ++ List.replicate 23 97)) 1 0 [1]).val = none := by
  have hline : MatchLine (ofList ([98,98] ++ List.replicate 23 97)) 25 1 0 [1] :=
    ⟨by decide,by decide,by decide,by decide,by decide⟩
  have hroom : freshBuffer.off+1070 < freshBuffer.cap := by simp [freshBuffer,defaultSize]
  exact ⟨freshBuffer_init,hline,
    hline.highlight_none (fun _ _ _ => rfl) (by decide) hroom (.inl (by decide))⟩

end SSearcher
