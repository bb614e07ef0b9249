import Mica.Listing
import Mica.Main
import Mica.Run
import Mica.Session.Dialogue
import Mica.Proofs.Fallible
import Mica.Proofs.Resolution
import Mica.Proofs.Loading
import Mica.Proofs.Lexical
import Mica.Proofs.Grammar.Derivation
import Mica.Proofs.Grammar.Reading
import Mica.Proofs.Grammar.Coverage
import Mica.Proofs.Grammar.Declarations
import Mica.Proofs.Grammar.Recognition
import Mica.Proofs.Grammar.Spelling
import Mica.Proofs.Grammar.Splitting
import Mica.Proofs.Grammar.Steering
import Mica.Proofs.Grammar.Acceptance
import Mica.Proofs.Grammar.Escapes
import Mica.Proofs.Grammar.Literals
import Mica.Proofs.Grammar.Printing
import Mica.Proofs.Safety
import Mica.Proofs.Requests
import Mica.Proofs.Account
import Mica.Proofs.Frames
import Mica.Proofs.LooseEnds
import Mica.Proofs.Inquiries
import Mica.Proofs.AlphaEquivalence
import Mica.Proofs.Admission
import Mica.Proofs.Register
import Mica.Proofs.Sessions
import Mica.Proofs.Batches
import Mica.Proofs.Growth
import Mica.Proofs.Standalone
import Mica.Proofs.Bystanders
import Mica.Proofs.Grammar.Layout
import Mica.Proofs.Grammar.Loosening
import Mica.Proofs.Traces
import Mica.Proofs.OpenBrackets
import Mica.Proofs.TypedInput
import Mica.Proofs.Outlines
import Mica.Proofs.Listings
import Mica.Proofs.Grammar.Leaves
import Mica.Proofs.Grammar.Positions
import Mica.Proofs.Grammar.Numerals
import Mica.Proofs.Interruptions
import Mica.Proofs.Termination
