import DecafStatics.CompilationUnit
import DecafStatics.SymbolTable.Listing
import DecafStatics.Tree.Build
import DecafStatics.Proofs.ScopeDiscipline
import DecafStatics.Proofs.Adequacy
import DecafStatics.Proofs.Resolution
import DecafStatics.Proofs.Layout
import DecafStatics.Proofs.Unaltered
import DecafStatics.Proofs.Lookup
import DecafStatics.Proofs.Safety
import DecafStatics.Proofs.Overlay
import DecafStatics.Proofs.Repetition
import DecafStatics.Proofs.SourceOrder
import DecafStatics.Proofs.Confinement
import DecafStatics.Proofs.ControlFlow
import DecafStatics.Proofs.Declaring
import DecafStatics.Proofs.Calls
import DecafStatics.Proofs.Inference
import DecafStatics.Proofs.Fitting
import DecafStatics.Proofs.Linking
import DecafStatics.Proofs.Construction
import DecafStatics.Proofs.Lines
import DecafStatics.Proofs.Outline
import DecafStatics.Proofs.Unambiguous
import DecafStatics.Proofs.Depth
import DecafStatics.Proofs.Steady
import DecafStatics.Proofs.SteadyRules
import DecafStatics.Proofs.Stepwise
import DecafStatics.Proofs.Script
import DecafStatics.Proofs.Stanzas
import DecafStatics.Proofs.Margin
import DecafStatics.Proofs.Delivery
import DecafStatics.Proofs.Auditing
