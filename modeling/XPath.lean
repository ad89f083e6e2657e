import XPath.Expr.Equality
import XPath.Expr.Template
import XPath.Host.Catalog
import XPath.NodeSet.Workspace
import XPath.Pattern.Matching
import XPath.Pattern.Parser
import XPath.Query
import XPath.Stream
import XPath.Proofs.Enumeration.Lists
import XPath.Proofs.Enumeration.Merge
import XPath.Proofs.Enumeration.Lookahead
import XPath.Proofs.Evaluation.Standard
import XPath.Proofs.Evaluation.Preservation
import XPath.Proofs.Evaluation.Extensions
import XPath.Proofs.Expr.Dependencies
import XPath.Proofs.Evaluation.Flags
import XPath.Proofs.Agreement.Engine
import XPath.Proofs.Reader
import XPath.Proofs.Expr.Depth
import XPath.Proofs.Pattern.Grammar
import XPath.Proofs.Meaning.Membership
import XPath.Proofs.Pattern.Predicates
import XPath.Proofs.Pattern.Selection
import XPath.Proofs.Pattern.Agreement
import XPath.Proofs.Pattern.Classification
import XPath.Proofs.Collation.Preorder
import XPath.Proofs.NodeSet.Algebra
import XPath.Proofs.Agreement.Fragment
import XPath.Proofs.NodeSet.Comparison
import XPath.Proofs.NodeSet.Inverse
import XPath.Proofs.NodeSet.Workspace
import XPath.Proofs.Evaluation.Order
import XPath.Proofs.Expr.NormalForm
import XPath.Proofs.Expr.Printing
import XPath.Proofs.Pattern.Kind
import XPath.Proofs.Pattern.Identity
import XPath.Proofs.Lexer.Boundary
import XPath.Proofs.Lexer.Words
import XPath.Proofs.Pattern.Focus
import XPath.Proofs.Expr.Replay
import XPath.Proofs.Expr.Locality
import XPath.Proofs.Expr.Composition
import XPath.Proofs.Lexer.Tiling
import XPath.Proofs.Expr.Template
import XPath.Proofs.DecimalFormat.Format
import XPath.Proofs.Collation.Accents
import XPath.Proofs.Fragment.Replay
import XPath.Proofs.Xml.Contract
import XPath.Proofs.Xml.Parsed
