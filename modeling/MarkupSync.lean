import MarkupSync.Project.Basic
import MarkupSync.Proofs.Canvas.Classes
import MarkupSync.Proofs.Canvas.Refused
import MarkupSync.Proofs.Diff.Keyed
import MarkupSync.Proofs.Diff.Moves
import MarkupSync.Proofs.Edit.Accepts
import MarkupSync.Proofs.Folder.Backup
import MarkupSync.Proofs.Folder.Locks
import MarkupSync.Proofs.Format.Document
import MarkupSync.Proofs.Format.Settled
import MarkupSync.Proofs.Json.Edit
import MarkupSync.Proofs.Lexeme.Coverage
import MarkupSync.Proofs.Lexeme.Value
import MarkupSync.Proofs.Patch.Aside
import MarkupSync.Proofs.Patch.Attributes
import MarkupSync.Proofs.Patch.InPlace
import MarkupSync.Proofs.Patch.Sections
import MarkupSync.Proofs.Patch.Spread
import MarkupSync.Proofs.Patch.Template
import MarkupSync.Proofs.Printer.Marks
import MarkupSync.Proofs.Report.Header
import MarkupSync.Proofs.Script.Code
import MarkupSync.Proofs.Script.Component
import MarkupSync.Proofs.Section.Nested
import MarkupSync.Proofs.Session.Debounce
import MarkupSync.Proofs.Session.Quiet
import MarkupSync.Proofs.Session.Shown
import MarkupSync.Proofs.Style.Converted
import MarkupSync.Proofs.Style.Literal
