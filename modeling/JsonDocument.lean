import JsonDocument.Session
import JsonDocument.Session.InPlace
import JsonDocument.Proofs.Grammar
import JsonDocument.Proofs.Reader.Number
import JsonDocument.Proofs.Reader.Quoted
import JsonDocument.Proofs.Reader.Runs
import JsonDocument.Proofs.Reader.Moves
import JsonDocument.Proofs.Reader.Consumed
import JsonDocument.Proofs.Reader.Recognition
import JsonDocument.Proofs.Reader.Local
import JsonDocument.Proofs.Reader.Viability
import JsonDocument.Proofs.Reader.Escaped
import JsonDocument.Proofs.Reader.Spelling
import JsonDocument.Proofs.Texts
import JsonDocument.Proofs.RoundTrip
import JsonDocument.Proofs.Rewriting
import JsonDocument.Proofs.Store.Cells
import JsonDocument.Proofs.Store.Trees
import JsonDocument.Proofs.Store.Sound
import JsonDocument.Proofs.Members
import JsonDocument.Proofs.Store.Grow
import JsonDocument.Proofs.Store.Changes
import JsonDocument.Proofs.Store.Operations
import JsonDocument.Proofs.Store.Edits
import JsonDocument.Proofs.Session.Reachable
import JsonDocument.Proofs.Text.Escape
import JsonDocument.Proofs.Text.Joining
import JsonDocument.Proofs.Text.Safety
import JsonDocument.Proofs.Writer
import JsonDocument.Proofs.Store.Copying
import JsonDocument.Proofs.Store.Copies
import JsonDocument.Proofs.Session.Ownership
import JsonDocument.Proofs.Session.Independence
import JsonDocument.Proofs.Reader.Resumption
import JsonDocument.Proofs.Reader.Brackets
import JsonDocument.Proofs.Reader.Limit
import JsonDocument.Proofs.Reader.Extension
import JsonDocument.Proofs.Building
import JsonDocument.Proofs.Store.Numbers
import JsonDocument.Proofs.Session.Numbers
import JsonDocument.Proofs.Store.Objects
import JsonDocument.Proofs.Session.Objects
import JsonDocument.Proofs.Number.Rounding
import JsonDocument.Proofs.Number.Value
import JsonDocument.Proofs.Number.Nearest
import JsonDocument.Proofs.Number.Floating
import JsonDocument.Proofs.Number.Reading
import JsonDocument.Proofs.Number.Shortest
import JsonDocument.Proofs.Plain.Listing
import JsonDocument.Proofs.Plain.Data
import JsonDocument.Proofs.Plain.Bridge
import JsonDocument.Proofs.Number.General
import JsonDocument.Proofs.Number.Range
import JsonDocument.Proofs.Number.Fifteen
import JsonDocument.Proofs.Number.Conversion
import JsonDocument.Proofs.Number.Integers
import JsonDocument.Proofs.Layout
import JsonDocument.Proofs.Store.Places
import JsonDocument.Proofs.Session.Storing
import JsonDocument.Proofs.Session.Detachment
import JsonDocument.Proofs.Session.InPlace
import JsonDocument.Proofs.Session.Failing
import JsonDocument.Proofs.Plain.Finding
import JsonDocument.Proofs.Plain.Entries
import JsonDocument.Proofs.Plain.Refusing
import JsonDocument.Plain.Sparse
import JsonDocument.Proofs.Plain.Holes
import JsonDocument.Proofs.Plain.Whole
import JsonDocument.Proofs.Options.Fields
import JsonDocument.Proofs.Options.Resolving
