import PhraseStructure.Main
import PhraseStructure.Proofs.Boundaries
import PhraseStructure.Proofs.Effort
import PhraseStructure.Proofs.ErrorReport
import PhraseStructure.Proofs.Exactness
import PhraseStructure.Proofs.LargerLimits
import PhraseStructure.Proofs.Layout
import PhraseStructure.Proofs.Levels
import PhraseStructure.Proofs.MirroredSearch
import PhraseStructure.Proofs.ReachablePart
import PhraseStructure.Proofs.RegularLanguage
import PhraseStructure.Proofs.RightHandSide
import PhraseStructure.Proofs.RuleClasses
import PhraseStructure.Proofs.SampleSpace
import PhraseStructure.Proofs.SectionOrder
import PhraseStructure.Proofs.Trace
import PhraseStructure.Proofs.Turns
import PhraseStructure.Proofs.Verdict
import PhraseStructure.Proofs.YieldPasses
