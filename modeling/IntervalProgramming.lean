import IntervalProgramming.Build.Pipeline
import IntervalProgramming.Objective.Formula
import IntervalProgramming.Scalar.Rational
import IntervalProgramming.Solve.Search
import IntervalProgramming.Proofs.Map.Changes
import IntervalProgramming.Proofs.Solve.Relaxed
import IntervalProgramming.Proofs.Box.Holders
import IntervalProgramming.Proofs.Layout.Tiling
import IntervalProgramming.Proofs.Layout.Carving
import IntervalProgramming.Proofs.Refine.Cuts
import IntervalProgramming.Proofs.Refine.Worklist
import IntervalProgramming.Proofs.Build.Stages
import IntervalProgramming.Proofs.Build.Result
import IntervalProgramming.Proofs.Solve.Bound
import IntervalProgramming.Proofs.Layout.Partition
import IntervalProgramming.Proofs.Layout.Volume
import IntervalProgramming.Proofs.Solve.Leaves
import IntervalProgramming.Proofs.Solve.Work
import IntervalProgramming.Proofs.Fit.Points
import IntervalProgramming.Proofs.Refine.Exhaustion
import IntervalProgramming.Proofs.Build.Validity
import IntervalProgramming.Proofs.Box.Difference
import IntervalProgramming.Proofs.Refine.Budget
import IntervalProgramming.Proofs.Refine.Splits
import IntervalProgramming.Proofs.Layout.Plateaus
import IntervalProgramming.Proofs.Layout.Retiling
import IntervalProgramming.Proofs.Layout.Idempotence
import IntervalProgramming.Proofs.Layout.Numbering
import IntervalProgramming.Proofs.Layout.Words
import IntervalProgramming.Proofs.Layout.EvenSplit
import IntervalProgramming.Proofs.Map.Rescaling
import IntervalProgramming.Proofs.Fit.Affine
import IntervalProgramming.Proofs.Box.Ranges
import IntervalProgramming.Proofs.Box.Intersection
import IntervalProgramming.Proofs.Map.Extremes
import IntervalProgramming.Proofs.Box.Requests
import IntervalProgramming.Proofs.Domain.Neighbours
import IntervalProgramming.Proofs.Layout.Counting
import IntervalProgramming.Proofs.Refine.Service
import IntervalProgramming.Proofs.Map.PartitionCheck
import IntervalProgramming.Proofs.Fit.Words
import IntervalProgramming.Proofs.Grid.Visits
import IntervalProgramming.Proofs.Solve.Weights
