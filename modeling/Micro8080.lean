import Micro8080.Machine.Command
import Micro8080.Proofs.Timing
import Micro8080.Proofs.Granularity
import Micro8080.Proofs.InFlight
import Micro8080.Proofs.FaultLatch
import Micro8080.Proofs.Footprint
import Micro8080.Proofs.Frame
import Micro8080.Proofs.Interleaving
import Micro8080.Proofs.Chronicle
import Micro8080.Proofs.UnknownOpcode
import Micro8080.Proofs.Listing
import Micro8080.Proofs.Relocation
import Micro8080.Proofs.Observation
import Micro8080.Proofs.Place
import Micro8080.Proofs.Transfer
import Micro8080.Proofs.Move
import Micro8080.Proofs.Increment
import Micro8080.Proofs.PairArithmetic
import Micro8080.Proofs.Accumulator
import Micro8080.Proofs.PathLanguage
import Micro8080.Proofs.Batch
import Micro8080.Proofs.Budget
import Micro8080.Proofs.History
import Micro8080.Proofs.RegisterBank
import Micro8080.Proofs.Coherence
import Micro8080.Proofs.Inverse
import Micro8080.Proofs.ImageLoading
import Micro8080.Proofs.Views
import Micro8080.Proofs.CanonicalNumeral
import Micro8080.Proofs.ReadingText
import Micro8080.Proofs.DumpText
import Micro8080.Proofs.CellsInUse
