import ContractCompiler.Proofs.Syntax.Relocation
import ContractCompiler.Proofs.Syntax.RevisedReading

/-!
# Reading balanced tokens

Brackets of different kinds are told apart only when a run is collected. From then on the readers
count how many are open. That is enough, because whatever they are asked about is balanced: a
bracket ends with one of its own kind, no count falls below zero, and it is never reported that a
bracket has no end.
-/

namespace ContractCompiler

open Run (Balanced)

/-! ## Counting -/

namespace Run

namespace Nested

variable {P : Token → Prop} {ts : List Token}

end Nested

end Run

/-! ## Outcomes -/

namespace Revision

end Revision

/-! ## Readers -/

namespace Deeper

end Deeper

end ContractCompiler
