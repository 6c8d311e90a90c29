import BranchBound.Proofs.Accounting
import BranchBound.Proofs.Atomicity
import BranchBound.Proofs.Bounds
import BranchBound.Proofs.Census
import BranchBound.Proofs.Consistency
import BranchBound.Proofs.Cutoff
import BranchBound.Proofs.Draining
import BranchBound.Proofs.Drift
import BranchBound.Proofs.DualBounds
import BranchBound.Proofs.Faults
import BranchBound.Proofs.Forecast
import BranchBound.Proofs.Foremost
import BranchBound.Proofs.Forwarding
import BranchBound.Proofs.GlobalBound
import BranchBound.Proofs.Lending
import BranchBound.Proofs.LoadCalls
import BranchBound.Proofs.Nesting
import BranchBound.Proofs.Pending
import BranchBound.Proofs.Policies
import BranchBound.Proofs.Priority
import BranchBound.Proofs.Reconstruction
import BranchBound.Proofs.ReplayLimit
import BranchBound.Proofs.Retrying
import BranchBound.Proofs.Teardown
import BranchBound.Proofs.Tenancy
import BranchBound.Proofs.Waiting
import BranchBound.Proofs.Work
import BranchBound.Solver.Scripted
import BranchBound.Tree.Choice
import BranchBound.Tree.Clearing
import BranchBound.Tree.Growth
import BranchBound.Tree.Loading
import BranchBound.Tree.Solving
