import Dataflow.Graph.Dump
import Dataflow.Evaluation.Evaluator
import Dataflow.Proofs.WellFormed
import Dataflow.Proofs.Regime
import Dataflow.Proofs.Coherence
import Dataflow.Proofs.Preservation
import Dataflow.Proofs.LastStep
import Dataflow.Proofs.Advance
import Dataflow.Proofs.Session
import Dataflow.Proofs.Consulting
import Dataflow.Proofs.Termination
import Dataflow.Proofs.Denotation
import Dataflow.Proofs.Faithfulness
import Dataflow.Proofs.Transparency
import Dataflow.Proofs.Stillness
import Dataflow.Proofs.Conduct
import Dataflow.Proofs.Naming
import Dataflow.Proofs.Frame
import Dataflow.Proofs.Arena
import Dataflow.Proofs.Refusal
import Dataflow.Proofs.Blame
import Dataflow.Proofs.Mirror
import Dataflow.Proofs.Breakpoints
import Dataflow.Proofs.Steadiness
import Dataflow.Proofs.FixedPoint
import Dataflow.Proofs.Reachability
import Dataflow.Proofs.Provenance
import Dataflow.Proofs.Tracing
import Dataflow.Proofs.Deferral
import Dataflow.Proofs.Simulation
import Dataflow.Proofs.Agreement
import Dataflow.Proofs.Noninterference
import Dataflow.Proofs.Commutation
import Dataflow.Proofs.Single
import Dataflow.Proofs.Typing
import Dataflow.Proofs.Faults
import Dataflow.Proofs.Internal
import Dataflow.Proofs.Broadcasting
import Dataflow.Proofs.Elementwise
import Dataflow.Proofs.Extents
import Dataflow.Proofs.Inferring
import Dataflow.Proofs.Shaping
import Dataflow.Proofs.OpenExtents
import Dataflow.Proofs.Folding
import Dataflow.Proofs.Totals
import Dataflow.Proofs.Packing
import Dataflow.Proofs.Products
import Dataflow.Proofs.Assignment
import Dataflow.Proofs.Joining
import Dataflow.Proofs.Slicing
import Dataflow.Proofs.Silence
import Dataflow.Proofs.Branching
import Dataflow.Proofs.Sequencing
import Dataflow.Proofs.Boxes
import Dataflow.Proofs.Padding
import Dataflow.Proofs.Reshaping
import Dataflow.Proofs.Doubles
import Dataflow.Proofs.Maxima
import Dataflow.Proofs.Symmetry
import Dataflow.Proofs.Calls
import Dataflow.Proofs.Casting
import Dataflow.Proofs.Rounding
import Dataflow.Proofs.Shortest
import Dataflow.Proofs.ReadBack
import Dataflow.Proofs.ThroughText
import Dataflow.Proofs.Selecting
import Dataflow.Proofs.Wrapping
import Dataflow.Proofs.Powers
import Dataflow.Proofs.Comparing
import Dataflow.Proofs.Views
import Dataflow.Proofs.Drawing
import Dataflow.Proofs.Indexing
import Dataflow.Proofs.Axes
import Dataflow.Proofs.Kinds
import Dataflow.Proofs.Declaring
