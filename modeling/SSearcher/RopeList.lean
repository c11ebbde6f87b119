import SSearcher.RopeWalk
set_option autoImplicit false

namespace SSearcher
open Runs Memory Rings

variable {h : Heap} {buf : Addr} {ws : List Write}

/-- The list at `head` is circular, and its nodes are `xs` one way and the other. -/
structure Shape (h : Heap) (head : Addr) (xs : List Addr) : Prop where
  distinct : (head::xs).Nodup
  inverse : ∀ x, x ∈ head::xs → h.prev (h.next x) = x ∧ h.next (h.prev x) = x
  forward : List.iterate h.next (h.next head) (xs.length+1) = xs++[head]
  backward : List.iterate h.prev (h.prev head) (xs.length+1) = xs.reverse++[head]

/-- The length survives the uint32_t of rope_setn, or the content ends before it matters. -/
def Write.Fits (w : Write) : Prop := w.len < 2^32 ∨ ∃ i, i ≤ u32 w.len ∧ w.content i = 0

end SSearcher
