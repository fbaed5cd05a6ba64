import DeepPath.Action
import DeepPath.Decimal.Binary64
import DeepPath.Decimal.Notation
import DeepPath.Decimal.Shortest
import DeepPath.Event
import DeepPath.Fault
import DeepPath.Graph.Copy
import DeepPath.Graph.Model
import DeepPath.Graph.ObjectType
import DeepPath.Graph.Store
import DeepPath.Graph.Text
import DeepPath.Graph.Ty
import DeepPath.Graph.Undo
import DeepPath.Graph.Value
import DeepPath.Model.Basic
import DeepPath.Model.Given
import DeepPath.Model.Read
import DeepPath.Model.Restricted
import DeepPath.Model.Trail
import DeepPath.Model.Update
import DeepPath.Path.Basic
import DeepPath.Path.Dialect
import DeepPath.Path.Malformed
import DeepPath.Path.Parse
import DeepPath.Path.Token
import DeepPath.Problem
import DeepPath.Session.Change
import DeepPath.Session.Dump
import DeepPath.Session.Form
import DeepPath.Session.Query
import DeepPath.Session.Statement
import DeepPath.Text.Layout
import DeepPath.Text.Printable
import DeepPath.Text.Quoted
import DeepPath.Tree.Basic
import DeepPath.Tree.Script
import DeepPath.Proofs.Graph.Layout
import DeepPath.Proofs.Graph.Declarations
import DeepPath.Proofs.Graph.Naming
import DeepPath.Proofs.Graph.Typing
import DeepPath.Proofs.Graph.Steps
import DeepPath.Proofs.Graph.Walk
import DeepPath.Proofs.Graph.Preserved
import DeepPath.Proofs.Graph.Copying
import DeepPath.Proofs.Graph.Making
import DeepPath.Proofs.Graph.Undoing
import DeepPath.Proofs.Graph.World
import DeepPath.Proofs.Graph.NoTrace
import DeepPath.Proofs.Graph.LostWrites
import DeepPath.Proofs.Graph.Mirror
import DeepPath.Proofs.Graph.Cloning
import DeepPath.Proofs.Graph.Fences
import DeepPath.Proofs.Graph.Isolation
import DeepPath.Proofs.Graph.Restored
import DeepPath.Proofs.Model.Effect
import DeepPath.Proofs.Model.Joined
import DeepPath.Proofs.Model.Reading
import DeepPath.Proofs.Model.Counting
import DeepPath.Proofs.Model.Log
import DeepPath.Proofs.Graph.ReadBack
import DeepPath.Proofs.Graph.Agreement
import DeepPath.Proofs.Session.Changes
import DeepPath.Proofs.Graph.Inclusion
import DeepPath.Proofs.Graph.Progress
import DeepPath.Proofs.Graph.ReadAfterWrite
import DeepPath.Proofs.Graph.Ledger
import DeepPath.Proofs.Graph.WriteSet
import DeepPath.Proofs.Path.Grammar
import DeepPath.Proofs.Path.RoundTrip
import DeepPath.Proofs.Path.Places
import DeepPath.Proofs.Path.BadTokens
import DeepPath.Proofs.Path.Seams
import DeepPath.Proofs.Tree.Steps
import DeepPath.Proofs.Tree.Revision
import DeepPath.Proofs.Tree.Lens
import DeepPath.Proofs.Tree.Divergence
import DeepPath.Proofs.Graph.Rebuilding
import DeepPath.Proofs.Graph.Halfway
import DeepPath.Proofs.Graph.Neutral
import DeepPath.Proofs.Graph.Duplicates
import DeepPath.Proofs.Graph.DepthFirst
import DeepPath.Proofs.Graph.Subtyping
import DeepPath.Proofs.Graph.Assignment
import DeepPath.Proofs.Graph.Equality
import DeepPath.Proofs.Path.Reported
