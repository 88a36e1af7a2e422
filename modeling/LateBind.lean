import LateBind.Span
import LateBind.Name
import LateBind.Signature
import LateBind.Diagnostic.Code
import LateBind.Diagnostic.Basic
import LateBind.Diagnostic.Queue
import LateBind.Syntax.Basic
import LateBind.Syntax.Function
import LateBind.Syntax.Event
import LateBind.Lexical.Scope
import LateBind.Lexical.Point
import LateBind.Lexical.SiteTable
import LateBind.Lexical.Locals
import LateBind.Unit.Nesting
import LateBind.Unit.Capture
import LateBind.Unit.Numbering
import LateBind.Unit.Construction
import LateBind.Unit.Builder
import LateBind.Linking.Registry
import LateBind.Linking.Resolution
import LateBind.Session
import LateBind.Text.Decimal
import LateBind.Text.CharClass
import LateBind.Text.CharClass.Extending
import LateBind.Text.CharClass.Unassigned
import LateBind.Text.Quoted
import LateBind.Dynamic.Table
import LateBind.Dynamic.Value
import LateBind.Dynamic.Error
import LateBind.Dynamic.Object
import LateBind.Dynamic.Program
import LateBind.Dynamic.Heap
import LateBind.Dynamic.Machine
import LateBind.Dynamic.Script
import LateBind.Dynamic.Describe
import LateBind.Proofs.Dynamic.Links
import LateBind.Proofs.Dynamic.Steps
import LateBind.Proofs.Dynamic.Uncached
import LateBind.Proofs.Dynamic.View
import LateBind.Proofs.Dynamic.Transparency
import LateBind.Proofs.Dynamic.Validity
import LateBind.Proofs.Dynamic.History
import LateBind.Proofs.Dynamic.Freezing
import LateBind.Proofs.Diagnostic.Queue
import LateBind.Proofs.Diagnostic.Requests
import LateBind.Proofs.Diagnostic.Sorting
import LateBind.Proofs.Diagnostic.Limits
import LateBind.Proofs.Lexical.Places
import LateBind.Proofs.Lexical.Blocks
import LateBind.Proofs.Lexical.Traversal
import LateBind.Proofs.Lexical.Statements
import LateBind.Proofs.Unit.Chains
import LateBind.Proofs.Unit.Depth
import LateBind.Proofs.Unit.WellFormed
import LateBind.Proofs.Unit.Free
import LateBind.Proofs.Unit.Captures
import LateBind.Proofs.Unit.CallSites
import LateBind.Proofs.Unit.Assembly
import LateBind.Proofs.Unit.Renumbering
import LateBind.Proofs.Unit.Fixpoint
import LateBind.Proofs.Linking.NamesSeen
import LateBind.Proofs.Linking.UnitOrder
import LateBind.Proofs.Linking.Closed
import LateBind.Proofs.Linking.InnermostScope
import LateBind.Proofs.Linking.Frames
import LateBind.Proofs.Linking.DirectCalls
import LateBind.Proofs.Linking.Settings
import LateBind.Proofs.Linking.OwnCalls
import LateBind.Proofs.Linking.Siblings
import LateBind.Proofs.Linking.Partition
import LateBind.Proofs.Linking.CallNumbers
import LateBind.Proofs.Dynamic.Writes
import LateBind.Proofs.Dynamic.Tokens
import LateBind.Proofs.Dynamic.Tracking
import LateBind.Proofs.Dynamic.BoundMethods
import LateBind.Proofs.Dynamic.Sites
import LateBind.Proofs.Dynamic.Relinking
import LateBind.Proofs.Text.ByteOrder
import LateBind.Proofs.Dynamic.Mixins
import LateBind.Proofs.Linking.Choice
import LateBind.Proofs.Linking.Overloads
import LateBind.Proofs.Linking.Receivers
import LateBind.Proofs.Diagnostic.Positions
import LateBind.Proofs.Diagnostic.Guarantees
import LateBind.Proofs.Text.Interning
import LateBind.Proofs.Unit.SourceOrder
import LateBind.Proofs.Dynamic.StubCalls
import LateBind.Proofs.Unit.Searches
import LateBind.Proofs.Unit.Parameters
