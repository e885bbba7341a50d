import Lisp.Main
import Lisp.Proofs.Activation
import Lisp.Proofs.Application
import Lisp.Proofs.Arithmetic
import Lisp.Proofs.Balance
import Lisp.Proofs.Concatenation
import Lisp.Proofs.Cond
import Lisp.Proofs.Countdown
import Lisp.Proofs.Depth
import Lisp.Proofs.EditDistance
import Lisp.Proofs.Entries
import Lisp.Proofs.EqualTexts
import Lisp.Proofs.Equality
import Lisp.Proofs.Evaluation
import Lisp.Proofs.Expansion
import Lisp.Proofs.Faults
import Lisp.Proofs.FiniteMap
import Lisp.Proofs.FloatText
import Lisp.Proofs.Grammar
import Lisp.Proofs.Growth
import Lisp.Proofs.Hashing
import Lisp.Proofs.IntegerOrder
import Lisp.Proofs.Integrity
import Lisp.Proofs.Layout
import Lisp.Proofs.Limit
import Lisp.Proofs.Loading
import Lisp.Proofs.Numerals
import Lisp.Proofs.Prelude
import Lisp.Proofs.Printing
import Lisp.Proofs.Reader
import Lisp.Proofs.RoundTrip
import Lisp.Proofs.Scanner
import Lisp.Proofs.Scope
import Lisp.Proofs.SelfEvaluation
import Lisp.Proofs.SingleForm
import Lisp.Proofs.Stack
import Lisp.Proofs.Tail
import Lisp.Proofs.Template
import Lisp.Proofs.Transparency
import Lisp.Proofs.Validation
import Lisp.Proofs.Wrapping
import Lisp.World.FileTree
