import Potts.Random.ChaCha
import Potts.Random.Cycle
import Potts.Scalar.Binary64
import Potts.Journal.Account
import Potts.Proofs.Data.SortedMap
import Potts.Proofs.Data.PartitionPoint
import Potts.Proofs.Failure.Checked
import Potts.Proofs.Failure.InPlace
import Potts.Proofs.Failure.Renumber
import Potts.Proofs.Scalar.Exact
import Potts.Proofs.Scalar.Real
import Potts.Proofs.Scalar.Binary64
import Potts.Proofs.Scalar.Filing
import Potts.Proofs.Partition.Population
import Potts.Proofs.Partition.Modularity
import Potts.Proofs.Partition.Members
import Potts.Proofs.Partition.Gain
import Potts.Proofs.Partition.Range
import Potts.Proofs.Partition.Pairs
import Potts.Proofs.Partition.Cells
import Potts.Proofs.Partition.Canonical
import Potts.Proofs.Partition.Numbering
import Potts.Proofs.Energy.Spectrum
import Potts.Proofs.Energy.Pairs
import Potts.Proofs.Energy.Index
import Potts.Proofs.Property.Store
import Potts.Proofs.Graph.Incidence
import Potts.Proofs.Graph.DegreeClass
import Potts.Proofs.Graph.Mixing
import Potts.Proofs.Graph.Network
import Potts.Proofs.Graph.Links
import Potts.Proofs.Graph.EdgeList
import Potts.Proofs.Graph.Attributed
import Potts.Proofs.NullModel.Tallied
import Potts.Proofs.NullModel.Tables
import Potts.Proofs.NullModel.Correlated
import Potts.Proofs.NullModel.Links
import Potts.Proofs.NullModel.Follows
import Potts.Proofs.NullModel.Expectation
import Potts.Proofs.NullModel.Rebuild
import Potts.Proofs.NullModel.Shares
import Potts.Proofs.NullModel.ClosedForm
import Potts.Proofs.NullModel.Division
import Potts.Proofs.NullModel.Conservation
import Potts.Proofs.NullModel.Agreement
import Potts.Proofs.NullModel.Vacancy
import Potts.Proofs.NullModel.Sign
import Potts.Proofs.Boltzmann.Table
import Potts.Proofs.Boltzmann.Weights
import Potts.Proofs.Boltzmann.Gibbs
import Potts.Proofs.Boltzmann.Draw
import Potts.Proofs.Boltzmann.Restore
import Potts.Proofs.Boltzmann.Chances
import Potts.Proofs.Boltzmann.Acceptance
import Potts.Proofs.Boltzmann.Ceiling
import Potts.Proofs.Annealing.Displacement
import Potts.Proofs.Annealing.Consistent
import Potts.Proofs.Annealing.Proposal
import Potts.Proofs.Annealing.Sweep
import Potts.Proofs.Annealing.Run
import Potts.Proofs.Annealing.Progress
import Potts.Proofs.Annealing.Synchrony
import Potts.Proofs.Annealing.Greedy
import Potts.Proofs.Annealing.Soundness
import Potts.Proofs.Annealing.Reports
import Potts.Proofs.Annealing.Cooling
import Potts.Proofs.Annealing.Vacancy
import Potts.Proofs.Annealing.ClassTable
import Potts.Proofs.Annealing.Gibbs
import Potts.Proofs.Annealing.Rejection
import Potts.Proofs.Annealing.Strengths
import Potts.Proofs.Annealing.Ceiling
import Potts.Proofs.Annealing.Modularity
import Potts.Proofs.Annealing.Links
import Potts.Proofs.Annealing.Trials
import Potts.Proofs.Annealing.Scores
