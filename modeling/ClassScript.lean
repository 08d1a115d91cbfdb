import ClassScript.Main
import ClassScript.Syntax.References
import ClassScript.Proofs.Scoping.Acceptance
import ClassScript.Proofs.Scoping.Independence
import ClassScript.Proofs.Scoping.Positions
import ClassScript.Proofs.Scoping.Recovery
import ClassScript.Proofs.Syntax.Exactness
import ClassScript.Proofs.Syntax.Identities
import ClassScript.Proofs.Syntax.Progress
import ClassScript.Proofs.Syntax.Recovery
import ClassScript.Proofs.Lexical.Munch
import ClassScript.Proofs.Lexical.Passages
import ClassScript.Proofs.Lexical.Respaced
import ClassScript.Proofs.Machine.Account
import ClassScript.Proofs.Machine.Accounted
import ClassScript.Proofs.Machine.Inheritance
import ClassScript.Proofs.Machine.ForLoop
import ClassScript.Proofs.Machine.Kept
import ClassScript.Proofs.Machine.Operations
import ClassScript.Proofs.Machine.Origins
import ClassScript.Proofs.Machine.PlainSearch
import ClassScript.Proofs.Machine.Receivers
import ClassScript.Proofs.Machine.Redeclarations
import ClassScript.Proofs.Machine.Returns
import ClassScript.Proofs.Machine.Truncation
import ClassScript.Proofs.Machine.Unbound
import ClassScript.Proofs.Number.Renderings
import ClassScript.Proofs.Syntax.Faithful
import ClassScript.Proofs.Object.Rendering
import ClassScript.Proofs.Phases
import ClassScript.Proofs.Store.Writes
import ClassScript.Proofs.Syntax.Braces
