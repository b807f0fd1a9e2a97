import TreePasses.Surface.Compiler
import TreePasses.Tree.Reader
import TreePasses.Language.Membership
import TreePasses.Proofs.SurfaceTyping
import TreePasses.Proofs.Desugaring
import TreePasses.Proofs.Derivation
import TreePasses.Proofs.SurfaceMembership
import TreePasses.Proofs.Kinds
import TreePasses.Proofs.Reading
import TreePasses.Proofs.Signatures
import TreePasses.Proofs.SoundLanguages
import TreePasses.Proofs.Workshop
import TreePasses.Proofs.Boundaries
import TreePasses.Proofs.Termination
import TreePasses.Proofs.Reordering
import TreePasses.Proofs.TreeText
import TreePasses.Proofs.Captures
import TreePasses.Proofs.FormPositions
import TreePasses.Proofs.PassDefinitions
import TreePasses.Proofs.RuleCalls
import TreePasses.Proofs.Fallbacks
import TreePasses.Proofs.Growth
import TreePasses.Proofs.Unfinished
import TreePasses.Proofs.ScanFaults
import TreePasses.Proofs.Carets
import TreePasses.Proofs.UnfinishedTrees
import TreePasses.Proofs.AtomsKept
import TreePasses.Proofs.Grouping
import TreePasses.Proofs.FixedWidth
import TreePasses.Clause.Counting
