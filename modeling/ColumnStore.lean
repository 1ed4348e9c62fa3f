import ColumnStore.Node.Clone
import ColumnStore.Node.Content
import ColumnStore.Query.Parallel
import ColumnStore.Query.Profile
import ColumnStore.Settings.Json
import ColumnStore.Table.Cell
import ColumnStore.Tree.Shape
import ColumnStore.Proofs.Ledger
import ColumnStore.Proofs.Heap
import ColumnStore.Proofs.CopyOnWrite
import ColumnStore.Proofs.TextFailure
import ColumnStore.Proofs.Rounds
import ColumnStore.Proofs.Prototype
import ColumnStore.Proofs.LeafSearch
import ColumnStore.Proofs.Parallel
import ColumnStore.Proofs.Interchange
import ColumnStore.Proofs.LeafLead
import ColumnStore.Proofs.Grammar
import ColumnStore.Proofs.Aggregate
import ColumnStore.Proofs.Filled
import ColumnStore.Proofs.Scans
import ColumnStore.Proofs.Failure
import ColumnStore.Proofs.HeaderLimits
import ColumnStore.Proofs.MemoryLimit
import ColumnStore.Proofs.RowFailure
import ColumnStore.Proofs.BytesRun
import ColumnStore.Proofs.Removal
import ColumnStore.Proofs.CaseForms
import ColumnStore.Proofs.Damage
import ColumnStore.Proofs.Operands
import ColumnStore.Proofs.LinkSearch
import ColumnStore.Proofs.HeaderCodec
import ColumnStore.Proofs.Clone
import ColumnStore.Proofs.FloatExtremes
import ColumnStore.Proofs.Takings
import ColumnStore.Proofs.FirstFit
import ColumnStore.Proofs.InPlace
