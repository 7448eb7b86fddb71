import ScopeIR.Main
import ScopeIR.Builder.ClassVars
import ScopeIR.Builder.Nested
import ScopeIR.Builder.ZSuper
import ScopeIR.Proofs.Code
import ScopeIR.Proofs.Running
import ScopeIR.Proofs.Growth
import ScopeIR.Proofs.Emission
import ScopeIR.Proofs.Copies
import ScopeIR.Proofs.Constructs
import ScopeIR.Proofs.Exits
import ScopeIR.Proofs.Nested
import ScopeIR.Proofs.Labels
import ScopeIR.Proofs.Supers
import ScopeIR.Proofs.LoopExits
import ScopeIR.Proofs.CopiedBreaks
import ScopeIR.Proofs.Acts
import ScopeIR.Proofs.Moves
import ScopeIR.Proofs.Marks
import ScopeIR.Proofs.Propagation
import ScopeIR.Proofs.Receivers
import ScopeIR.Proofs.Forwarding
import ScopeIR.Proofs.Layout
import ScopeIR.Proofs.Regions
import ScopeIR.Proofs.Archive
import ScopeIR.Proofs.Restarts
import ScopeIR.Proofs.EnsureBodies
import ScopeIR.Proofs.Conformance
import ScopeIR.Proofs.Replay
import ScopeIR.Proofs.Numbering
import ScopeIR.Proofs.Faultless
import ScopeIR.Proofs.Departures
import ScopeIR.Proofs.CarriedValues
import ScopeIR.Proofs.Abandonment
import ScopeIR.Proofs.Untraced
import ScopeIR.Proofs.Levels
import ScopeIR.Proofs.FreshCopies
import ScopeIR.Proofs.Loops
import ScopeIR.Proofs.Conditionals
import ScopeIR.Proofs.Branches
import ScopeIR.Proofs.CapturedBindings
import ScopeIR.Proofs.ClassVarHolders
import ScopeIR.Proofs.RejectedExits
import ScopeIR.Proofs.Attribution
import ScopeIR.Proofs.Handouts
import ScopeIR.Proofs.LabelSources
import ScopeIR.Proofs.Spelling
import ScopeIR.Proofs.Depths
import ScopeIR.Proofs.Reckoning
