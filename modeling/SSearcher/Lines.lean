import SSearcher.Listing
set_option autoImplicit false

namespace SSearcher
open Runs Memory Matching

/-- The lines of a text, without their newlines. -/
def lines (l : List UInt8) : List (List UInt8) := l.splitOn newline

/-- A match in a line -/
structure Place where
  linum : Nat
  col : Nat
  line : List UInt8
  deriving DecidableEq

def Options.placesFrom (opt : Options) (n : Nat) : List (List UInt8) → List Place
  | [] => []
  | line::ls =>
    (occurrences opt.searchPattern (ofList line) opt.searchPatlen line.length).map (⟨n,·,line⟩) ++
      opt.placesFrom (n+1) ls

def Options.places (opt : Options) (l : List UInt8) : List Place := opt.placesFrom 1 (lines l)

/-- The line with the match between the escapes, cut behind 1024 bytes and at a NUL. -/
def Options.lineRecord (opt : Options) (x : Place) : List UInt8 := linumFormat x.linum ++
  (x.line.take x.col ++ hiliColor ++ (x.line.drop x.col).take opt.searchPatlen ++ resetColor ++
    ((x.line.take 1024).drop (x.col+opt.searchPatlen)).takeWhile (· ≠ 0))

variable {opt : Options} {l line rest : List UInt8} {t : Ptr} {a i j k n q : Nat} {x : Place}

section
variable {fb : Ptr} {s c : Nat}

structure LineIs (fb : Ptr) (s : Nat) (line : List UInt8) : Prop where
  bytes : ∀ k, k ≤ line.length → slice fb s k = line.take k
  stop : isText (fb (s+line.length)) = false
  plain : newline ∉ line

theorem LineIs.drop (h : LineIs fb s line) (hc : c+k ≤ line.length) :
    slice fb (s+c) k = (line.drop c).take k := by
  have hsum := h.bytes (c+k) hc
  rw [slice_add,h.bytes c (by omega),List.take_add] at hsum
  exact List.append_cancel_left hsum

theorem takeWhile_isText (h : newline ∉ l) : l.takeWhile isText = l.takeWhile (· ≠ 0) := by
  induction l with
  | nil => rfl
  | cons c l ih =>
    obtain ⟨hc,hl⟩ := List.ne_and_not_mem_of_not_mem_cons h
    have hp : isText c = decide (c ≠ 0) := by simp [isText,bne,beq_eq_decide,hc.symm]
    rw [List.takeWhile_cons,List.takeWhile_cons,hp,ih hl]

theorem LineIs.behind (h : LineIs fb s line) (hc : c ≤ line.length) :
    (slice fb (s+c) (1024-c)).takeWhile isText =
      ((line.take 1024).drop c).takeWhile (· ≠ 0) := by
  have hno : newline ∉ (line.take 1024).drop c :=
    fun hin => h.plain (List.mem_of_mem_take (List.mem_of_mem_drop hin))
  rw [← takeWhile_isText hno,List.drop_take]
  rcases Nat.lt_or_ge line.length 1024 with hlt | hge
  · have hlimit : 1024-c = (line.length-c)+(1+(1024-line.length-1)) := by omega
    have hlast : slice fb (s+c+(line.length-c)) 1 = [fb (s+line.length)] := by
      rw [Nat.add_assoc s,Nat.add_sub_cancel' hc]
      rfl
    rw [List.take_of_length_le (by simp; omega),hlimit,slice_add,slice_add,hlast,
      h.drop (by omega),List.take_of_length_le (by simp),List.takeWhile_append,
      List.singleton_append,List.takeWhile_cons,h.stop]
    split
    · rename_i hlen
      rw [(List.takeWhile_prefix isText).eq_of_length hlen]
      exact List.append_nil _
    · rfl
  · rw [h.drop (by omega)]

end

section
variable (hpos : 0 < opt.searchPatlen)
  (hpat : ∀ i, i < opt.searchPatlen → opt.searchPattern i ≠ newline)
include hpos hpat

end

/-- A file of less than 2^30 bytes with each match in the first 1024 bytes of its line, and
in front of it no NUL; and the records do not fill the block to its last byte. -/
structure Entry.Fits (opt : Options) (e : Entry) : Prop where
  size : e.bytes.length < 2^30
  columns : ∀ x, x ∈ opt.places e.bytes → x.col+opt.searchPatlen ≤ 1024
  whole : opt.listMatchingFiles = true ∨
    (∀ x, x ∈ opt.places e.bytes → 0 ∉ x.line.take (x.col+opt.searchPatlen)) ∧
    ∀ k, ((opt.places e.bytes).flatMap opt.lineRecord).length ≠ defaultSize*2^k

variable {W : Type} {hopt : opt.Usable} {tr : Trie} {entries : List Entry} {g : Sys W}

end SSearcher
