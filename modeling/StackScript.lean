import StackScript.Command.Directory
import StackScript.Machine.Request
import StackScript.Main
import StackScript.Proofs.Bytecode.RoundTrip
import StackScript.Proofs.Bytecode.Whole
import StackScript.Proofs.Code.Listing
import StackScript.Proofs.Codec.Locality
import StackScript.Proofs.Codec.Reencoding
import StackScript.Proofs.Codec.RoundTrip
import StackScript.Proofs.Compiler.Bookkeeping
import StackScript.Proofs.Compiler.Overfull
import StackScript.Proofs.Compiler.Rearranged
import StackScript.Proofs.Compiler.Scoping
import StackScript.Proofs.Machine.Bounded
import StackScript.Proofs.Machine.Invoking
import StackScript.Proofs.Meaning.Preservation
import StackScript.Proofs.Scope.Lexical
import StackScript.Proofs.Session.Coherent
import StackScript.Proofs.Session.Failed
import StackScript.Proofs.Session.Halting
import StackScript.Proofs.Session.Incremental
import StackScript.Proofs.Session.Lets
import StackScript.Proofs.Session.Neutral
import StackScript.Proofs.Session.OwnName
import StackScript.Proofs.Session.Pointing
import StackScript.Proofs.Session.Results
import StackScript.Proofs.Session.Spacing
import StackScript.Proofs.Syntax.Accepted
import StackScript.Proofs.Syntax.Chains
import StackScript.Proofs.Syntax.Earliest
import StackScript.Proofs.Syntax.Joining
import StackScript.Proofs.Syntax.Nesting
import StackScript.Proofs.Syntax.Plain
import StackScript.Proofs.Text.Positions
import StackScript.Proofs.Token.Strings
import StackScript.Syntax.Outline
