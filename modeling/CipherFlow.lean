import CipherFlow.Arith.Modular
import CipherFlow.Arith.Prime
import CipherFlow.Element.Arith
import CipherFlow.Element.Handle
import CipherFlow.Element.Nonlinear
import CipherFlow.Fault
import CipherFlow.Graph.Basic
import CipherFlow.Graph.Builder
import CipherFlow.Graph.Edit
import CipherFlow.Graph.Op
import CipherFlow.Graph.Order
import CipherFlow.Graph.Pattern
import CipherFlow.Graph.Typing
import CipherFlow.Normalize.Fusion
import CipherFlow.Normalize.Pipeline
import CipherFlow.Normalize.Rescaling
import CipherFlow.Normalize.Rule
import CipherFlow.Number.Binary64
import CipherFlow.Number.Decimal
import CipherFlow.Primitives
import CipherFlow.Primitives.Standard
import CipherFlow.Proofs.Arith.LargestPrimes
import CipherFlow.Proofs.Arith.Powers
import CipherFlow.Proofs.Arith.Primality
import CipherFlow.Proofs.Arith.Words
import CipherFlow.Proofs.Element.Commuting
import CipherFlow.Proofs.Element.Levels
import CipherFlow.Proofs.Element.Returning
import CipherFlow.Proofs.Element.Zeros
import CipherFlow.Proofs.Fault
import CipherFlow.Proofs.Graph.Arena
import CipherFlow.Proofs.Graph.Built
import CipherFlow.Proofs.Graph.Finding
import CipherFlow.Proofs.Graph.Foreign
import CipherFlow.Proofs.Graph.Inference
import CipherFlow.Proofs.Graph.Occurrences
import CipherFlow.Proofs.Graph.Order
import CipherFlow.Proofs.Graph.Parameters
import CipherFlow.Proofs.Graph.Paths
import CipherFlow.Proofs.Graph.Pruning
import CipherFlow.Proofs.Graph.Reach
import CipherFlow.Proofs.Graph.Retiring
import CipherFlow.Proofs.Graph.Rewiring
import CipherFlow.Proofs.Graph.Sound
import CipherFlow.Proofs.Normalize.Change
import CipherFlow.Proofs.Normalize.Compiled
import CipherFlow.Proofs.Normalize.Fixpoint
import CipherFlow.Proofs.Normalize.Fusion
import CipherFlow.Proofs.Normalize.Insertion
import CipherFlow.Proofs.Normalize.Maintained
import CipherFlow.Proofs.Normalize.Merging
import CipherFlow.Proofs.Normalize.Placement
import CipherFlow.Proofs.Normalize.Replacement
import CipherFlow.Proofs.Normalize.Rules
import CipherFlow.Proofs.Normalize.Substitution
import CipherFlow.Proofs.Normalize.Sweep
import CipherFlow.Proofs.Number.Agreement
import CipherFlow.Proofs.Number.Commuting
import CipherFlow.Proofs.Number.Forms
import CipherFlow.Proofs.Number.Magnitude
import CipherFlow.Proofs.Number.Nonnegative
import CipherFlow.Proofs.Number.Whole
import CipherFlow.Proofs.Ring.Algebra
import CipherFlow.Proofs.Ring.Balanced
import CipherFlow.Proofs.Ring.Evaluation
import CipherFlow.Proofs.Ring.Garner
import CipherFlow.Proofs.Ring.Image
import CipherFlow.Proofs.Ring.InWords
import CipherFlow.Proofs.Ring.Integers
import CipherFlow.Proofs.Ring.MixedRadix
import CipherFlow.Proofs.Ring.ReadBack
import CipherFlow.Proofs.Ring.Rounding
import CipherFlow.Proofs.Ring.Schoolbook
import CipherFlow.Proofs.Ring.Wide
import CipherFlow.Proofs.Ring.Zero
import CipherFlow.Proofs.Run.Answers
import CipherFlow.Proofs.Run.BatchedBroadcast
import CipherFlow.Proofs.Run.Clamping
import CipherFlow.Proofs.Run.Descent
import CipherFlow.Proofs.Run.Grouping
import CipherFlow.Proofs.Run.Holding
import CipherFlow.Proofs.Run.LaneByLane
import CipherFlow.Proofs.Run.Lanes
import CipherFlow.Proofs.Run.Layout
import CipherFlow.Proofs.Run.Levels
import CipherFlow.Proofs.Run.Nodes
import CipherFlow.Proofs.Run.Plain
import CipherFlow.Proofs.Run.Preservation
import CipherFlow.Proofs.Run.Progress
import CipherFlow.Proofs.Run.Refusals
import CipherFlow.Proofs.Run.Substitutes
import CipherFlow.Proofs.Run.Unbatching
import CipherFlow.Proofs.Run.Valuation
import CipherFlow.Proofs.Scheme.Chain
import CipherFlow.Proofs.Scheme.Commands
import CipherFlow.Proofs.Scheme.Contexts
import CipherFlow.Proofs.Scheme.Decryption
import CipherFlow.Proofs.Scheme.Draws
import CipherFlow.Proofs.Scheme.Encryption
import CipherFlow.Proofs.Scheme.ForeignKeys
import CipherFlow.Proofs.Scheme.Homomorphism
import CipherFlow.Proofs.Scheme.Keys
import CipherFlow.Proofs.Scheme.Multiplication
import CipherFlow.Proofs.Scheme.Readable
import CipherFlow.Proofs.Scheme.Rescaling
import CipherFlow.Proofs.Scheme.Sizes
import CipherFlow.Proofs.Scheme.Zeros
import CipherFlow.Proofs.Session.Client
import CipherFlow.Proofs.Session.Completion
import CipherFlow.Proofs.Session.Conduct
import CipherFlow.Proofs.Session.Connections
import CipherFlow.Proofs.Session.Contents
import CipherFlow.Proofs.Session.Duplex
import CipherFlow.Proofs.Session.Exchange
import CipherFlow.Proofs.Session.Frames
import CipherFlow.Proofs.Session.KeyHolder
import CipherFlow.Proofs.Session.Remote
import CipherFlow.Proofs.Session.Returns
import CipherFlow.Proofs.Session.Rounds
import CipherFlow.Proofs.Session.Server
import CipherFlow.Proofs.Session.Serving
import CipherFlow.Proofs.Session.Shapes
import CipherFlow.Proofs.Session.Streams
import CipherFlow.Proofs.Slots.Arithmetic
import CipherFlow.Proofs.Slots.Complex
import CipherFlow.Proofs.Slots.Encoding
import CipherFlow.Proofs.Slots.Positions
import CipherFlow.Proofs.Slots.RoundTrip
import CipherFlow.Proofs.Slots.Transforms
import CipherFlow.Proofs.Slots.Zeros
import CipherFlow.Proofs.Tensor.Alignment
import CipherFlow.Proofs.Tensor.Broadcast
import CipherFlow.Proofs.Tensor.Contraction
import CipherFlow.Proofs.Tensor.Kinds
import CipherFlow.Proofs.Tensor.Offsets
import CipherFlow.Proofs.Tensor.Parametric
import CipherFlow.Proofs.Tensor.Positions
import CipherFlow.Proofs.Tensor.Progress
import CipherFlow.Proofs.Tensor.Returning
import CipherFlow.Proofs.Tensor.Sums
import CipherFlow.Proofs.Tensor.Windows
import CipherFlow.Proofs.Wire.Ciphertext
import CipherFlow.Proofs.Wire.Codecs
import CipherFlow.Proofs.Wire.Fields
import CipherFlow.Proofs.Wire.Keys
import CipherFlow.Ring.Basis
import CipherFlow.Ring.Convolution
import CipherFlow.Ring.Poly
import CipherFlow.Ring.Reconstruction
import CipherFlow.Run.Backend
import CipherFlow.Run.Oracle
import CipherFlow.Run.Problem
import CipherFlow.Run.Tensor
import CipherFlow.Scheme.Ciphertext
import CipherFlow.Scheme.Coins
import CipherFlow.Scheme.Context
import CipherFlow.Scheme.Encryption
import CipherFlow.Scheme.Evaluator
import CipherFlow.Scheme.Key
import CipherFlow.Scheme.LevelId
import CipherFlow.Scheme.Params
import CipherFlow.Session.Client
import CipherFlow.Session.Exchange
import CipherFlow.Session.Frame
import CipherFlow.Session.Message
import CipherFlow.Session.Payload
import CipherFlow.Session.Script
import CipherFlow.Session.Server
import CipherFlow.Session.Transport
import CipherFlow.Slots.Embedding
import CipherFlow.Slots.Fourier
import CipherFlow.Slots.Packing
import CipherFlow.Tensor.Contraction
import CipherFlow.Tensor.Elements
import CipherFlow.Tensor.Shape
import CipherFlow.Tensor.Type
import CipherFlow.Wire.Bytes
import CipherFlow.Wire.Ciphertext
import CipherFlow.Wire.Key
