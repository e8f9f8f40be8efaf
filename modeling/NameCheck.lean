import NameCheck.Main
import NameCheck.Proofs.Resolve.Accounting
import NameCheck.Proofs.Resolve.Structs
import NameCheck.Proofs.Resolve.TypeNames
import NameCheck.Proofs.Resolve.Fields
import NameCheck.Proofs.Grammar.Expectations
import NameCheck.Proofs.Grammar.Blame
import NameCheck.Proofs.Layout
import NameCheck.Proofs.Token.Display
import NameCheck.Proofs.Token.Lossless
import NameCheck.Proofs.Scope.History
import NameCheck.Proofs.Resolve.Globals
import NameCheck.Proofs.Pointing
import NameCheck.Proofs.Resolve.Footprint
import NameCheck.Proofs.Resolve.FirstWins
import NameCheck.Proofs.Resolve.Deletions
import NameCheck.Proofs.Appending
import NameCheck.Proofs.Resolve.Reordering
import NameCheck.Proofs.Resolve.Equivariance
import NameCheck.Proofs.Token.Spans
import NameCheck.Proofs.Source.Boundaries
import NameCheck.Proofs.Source.Scan
import NameCheck.Proofs.Grammar.Nodes
import NameCheck.Proofs.Grammar.Progress
import NameCheck.Proofs.Token.Quoted
import NameCheck.Proofs.Token.Numbers
import NameCheck.Proofs.Report.Colors
import NameCheck.Proofs.Scope.Nesting
import NameCheck.Proofs.Report.Places
import NameCheck.Proofs.Scope.Dump
import NameCheck.Proofs.ExitStatus
import NameCheck.Proofs.Report.Expected
import NameCheck.Proofs.Resolve.Records
