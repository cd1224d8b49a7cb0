import Rulebook.Proofs.CombinationLimits
import Rulebook.Proofs.CombinedRules

namespace Rulebook

open Results

namespace Combination

variable {b : Bounds} {first : Rule} {rest : List Rule} {n : Nat}

end Combination

namespace Engine

variable {e e' : Engine} {ids : List RuleId} {parts : List Rule}

end Engine

end Rulebook
