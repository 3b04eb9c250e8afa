import FactorMachine.Assembly.Patch
import FactorMachine.CommandLine.Directory
import FactorMachine.Main
import FactorMachine.Prime.Table
import FactorMachine.Proofs.Chunk.RoundTrip
import FactorMachine.Proofs.Seeker.Depth
import FactorMachine.Proofs.Seeker.Intact
import FactorMachine.Proofs.Seeker.Rebuild
import FactorMachine.Proofs.Seeker.Requests
import FactorMachine.Proofs.Seeker.Rotation
import FactorMachine.Proofs.Seeker.Distinct
import FactorMachine.Proofs.Seeker.Statements
import FactorMachine.Proofs.Seeker.FailurePath
import FactorMachine.Proofs.Seeker.SuccessPath
import FactorMachine.Proofs.Trainer.Life
import FactorMachine.Proofs.Trainer.Streaks
import FactorMachine.Proofs.Chunk.Least
import FactorMachine.Proofs.Chunk.Checksummed
import FactorMachine.Proofs.Assembly.SinglePass
import FactorMachine.Proofs.Assembly.Feasible
import FactorMachine.Proofs.Assembly.Transfer
import FactorMachine.Proofs.Trainer.Meeting
import FactorMachine.Prime.Shared
import FactorMachine.Proofs.Prime.Growth
import FactorMachine.Proofs.Prime.Shared
import FactorMachine.Proofs.Prime.Exact
import FactorMachine.Proofs.Engine.Parts
import FactorMachine.Proofs.Engine.Bounds
import FactorMachine.Proofs.Engine.Budget
import FactorMachine.Proofs.Engine.Observer
import FactorMachine.Proofs.Engine.History
import FactorMachine.Proofs.Engine.Protocol
import FactorMachine.Proofs.Engine.Recording
import FactorMachine.Proofs.Engine.Underneath
import FactorMachine.Proofs.Listing
import FactorMachine.Proofs.Chunk.Joined
import FactorMachine.Proofs.Chunk.Analysis
import FactorMachine.Proofs.Chunk.Corruption
import FactorMachine.Proofs.Engine.Factors
import FactorMachine.Proofs.Engine.Dispatch
import FactorMachine.Proofs.Engine.Containment
import FactorMachine.Proofs.Seeker.Planning
import FactorMachine.Proofs.Trainer.Marks
import FactorMachine.Proofs.Assembly.Patches
import FactorMachine.Proofs.Assembly.Retargeting
import FactorMachine.Proofs.Assembly.Rejected
import FactorMachine.Proofs.Trainer.Unusable
import FactorMachine.Proofs.Trainer.Accounting
import FactorMachine.Proofs.Prime.Prefix
import FactorMachine.Proofs.Seeker.Renewal
import FactorMachine.Proofs.Trainer.Upkeep
import FactorMachine.Proofs.Trainer.Training
import FactorMachine.Proofs.Trainer.Credit
import FactorMachine.Proofs.Listing.Concatenation
import FactorMachine.Proofs.Trainer.Targets
import FactorMachine.Proofs.Engine.Counters
import FactorMachine.Proofs.Engine.Repeats
import FactorMachine.Proofs.Seeker.Unwinding
import FactorMachine.Proofs.Seeker.Registers
import FactorMachine.Proofs.Seeker.Ranking
