import TapeLang.Main
import TapeLang.Proofs.BigStep
import TapeLang.Proofs.Linking
import TapeLang.Proofs.StructuredRun
import TapeLang.Proofs.Tightening
import TapeLang.Proofs.Squeezing
import TapeLang.Proofs.Shrinking
import TapeLang.Proofs.ShrunkRun
import TapeLang.Proofs.Commands
import TapeLang.Proofs.Fitting
import TapeLang.Proofs.CLanguage
import TapeLang.Proofs.CReading
import TapeLang.Proofs.CBackend
import TapeLang.Proofs.Rejection
import TapeLang.Proofs.Rewriting
import TapeLang.Proofs.Bounds
import TapeLang.Proofs.Printing
import TapeLang.Proofs.StepLimit
import TapeLang.Proofs.FailingWriter
import TapeLang.Proofs.Sessions
import TapeLang.Proofs.LinkFaults
import TapeLang.Proofs.Travel
import TapeLang.Proofs.Searching
import TapeLang.Proofs.OffTape
import TapeLang.Proofs.Depth
import TapeLang.Proofs.CLayout
import TapeLang.Proofs.TextReading
import TapeLang.Proofs.Positions
import TapeLang.Proofs.ListingReading
import TapeLang.Proofs.CFaithful
import TapeLang.Proofs.Marks
import TapeLang.Proofs.Halting
import TapeLang.Proofs.Unsupported
import TapeLang.Proofs.Arguments
import TapeLang.Proofs.Modes
import TapeLang.Proofs.TableReading
import TapeLang.Proofs.Counting
import TapeLang.Proofs.Streaming
