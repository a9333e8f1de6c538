import Reshape.Config.Reader
import Reshape.Env.Stack
import Reshape.Session
import Reshape.Proofs.Family
import Reshape.Proofs.Parts
import Reshape.Proofs.Preservation
import Reshape.Proofs.Related
import Reshape.Proofs.SinglePass
import Reshape.Proofs.Reading
import Reshape.Proofs.Pruning
import Reshape.Proofs.Places
import Reshape.Proofs.Inlining
import Reshape.Proofs.PathText
import Reshape.Proofs.RenamedRules
import Reshape.Proofs.Replacing
import Reshape.Proofs.Addresses
import Reshape.Proofs.Listing
import Reshape.Proofs.Repetitions
import Reshape.Proofs.Failure
import Reshape.Proofs.Outputs
import Reshape.Proofs.Unread
import Reshape.Proofs.Instantiation
import Reshape.Proofs.Rendering
import Reshape.Proofs.Arrangement
import Reshape.Proofs.IntegerPlaces
import Reshape.Proofs.Appending
import Reshape.Proofs.Routes
import Reshape.Proofs.Histories
import Reshape.Proofs.ReservedKeys
import Reshape.Proofs.PathGrammar
import Reshape.Proofs.Substitution
import Reshape.Proofs.FirstFault
import Reshape.Proofs.WellFormed
import Reshape.Proofs.DepthLimit
import Reshape.Proofs.Keying
import Reshape.Proofs.Sorting
import Reshape.Proofs.Concatenation
import Reshape.Proofs.Records
import Reshape.Proofs.NumeralText
import Reshape.Proofs.Objects
import Reshape.Proofs.Settings
