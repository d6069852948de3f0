import Lox.Main
import Lox.Proofs.Grammar
import Lox.Proofs.Identity
import Lox.Proofs.Naming
import Lox.Proofs.Resolving
import Lox.Proofs.Frames
import Lox.Proofs.Safety
import Lox.Proofs.Sessions
import Lox.Proofs.Renaming
import Lox.Proofs.RenamedScopes
import Lox.Proofs.RenamedRuns
import Lox.Proofs.Returning
import Lox.Proofs.StaticRules
import Lox.Proofs.Recasting
import Lox.Proofs.Rejections
import Lox.Proofs.Numbering
import Lox.Proofs.DepthLimit
import Lox.Proofs.Confinement
import Lox.Proofs.SelfReference
import Lox.Proofs.JoinedSources
import Lox.Proofs.Joining
import Lox.Proofs.MaximalMunch
import Lox.Proofs.Rescanning
import Lox.Proofs.Printing
import Lox.Proofs.FullSink
import Lox.Proofs.Rendering
import Lox.Proofs.Nesting
import Lox.Proofs.Isolation
import Lox.Proofs.Progress
import Lox.Proofs.ClassFailures
import Lox.Proofs.Properties
import Lox.Proofs.Construction
import Lox.Proofs.LoweredLoops
import Lox.Proofs.Searching
import Lox.Proofs.LineNumbers
import Lox.Proofs.NumberTexts
import Lox.Proofs.Bracketing
import Lox.Proofs.Restoring
import Lox.Proofs.Ancestry
