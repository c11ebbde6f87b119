import SSearcher.Listing
set_option autoImplicit false

namespace SSearcher
open Runs Memory Matching

section
variable {α β : Type}

end

variable {x : Nat × List UInt8} {l : List UInt8}

namespace Scan
variable {sc : Scan} {x : Nat × Nat}

end Scan

variable {opt : Options} {hopt : opt.Usable} {entries : List Entry} {i : Nat} {sc : Scan}

end SSearcher
