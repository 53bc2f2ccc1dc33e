import TestAtlas.Text.Ranges
import TestAtlas.Text.Word
import TestAtlas.Text.Blank
import TestAtlas.Text.Printable
import TestAtlas.Text.Case
import TestAtlas.Text.Cut
import TestAtlas.Text.Lines
import TestAtlas.Text.Utf8
import TestAtlas.Text.Percent
import TestAtlas.Text.Quoted
import TestAtlas.Text.StandIn
import TestAtlas.Text.Digit
import TestAtlas.Keyed
import TestAtlas.Path
import TestAtlas.Item.Kind
import TestAtlas.Item.Id
import TestAtlas.Decimal.Binary64
import TestAtlas.Decimal.Shortest
import TestAtlas.Decimal.Notation
import TestAtlas.Json.Value
import TestAtlas.Json.Token
import TestAtlas.Json.Reader
import TestAtlas.Json.Writer
import TestAtlas.Json.Display
import TestAtlas.Pattern.Syntax
import TestAtlas.Pattern.Places
import TestAtlas.Pattern.Matcher
import TestAtlas.Pattern.Sign
import TestAtlas.Pattern.Element
import TestAtlas.Pattern.Parser
import TestAtlas.Outline.Symbol
import TestAtlas.Outline.Comment
import TestAtlas.Outline.Declaration
import TestAtlas.Outline.Scan
import TestAtlas.Outline.Leaf
import TestAtlas.Outline.Provider
import TestAtlas.Settings.Basic
import TestAtlas.Settings.Validation
import TestAtlas.Settings.Storage
import TestAtlas.Settings.Place
import TestAtlas.Workspace.FileName
import TestAtlas.Workspace.FileStore
import TestAtlas.Workspace.Basic
import TestAtlas.Workspace.Manifest
import TestAtlas.Workspace.ModuleMap
import TestAtlas.Workspace.Layout
import TestAtlas.Event
import TestAtlas.Tree.Forest
import TestAtlas.Tree.Reconcile
import TestAtlas.Explorer.Basic
import TestAtlas.Explorer.Expansion
import TestAtlas.Explorer.Placement
import TestAtlas.Explorer.Removal
import TestAtlas.Explorer.Call
import TestAtlas.Explorer.Session
import TestAtlas.Disk
import TestAtlas.Log.Options
import TestAtlas.Log.LineFormat
import TestAtlas.Log.Rotation
import TestAtlas.Log.Setup
import TestAtlas.Proofs.Path.Location
import TestAtlas.Proofs.Path.Descent
import TestAtlas.Proofs.Path.NormalForm
import TestAtlas.Proofs.Path.Containment
import TestAtlas.Proofs.Text.Escape
import TestAtlas.Proofs.Text.Stripped
import TestAtlas.Proofs.Item.Form
import TestAtlas.Proofs.Item.Identifier
import TestAtlas.Proofs.Item.Acceptance
import TestAtlas.Proofs.Keyed
import TestAtlas.Proofs.Workspace.InMemory
import TestAtlas.Proofs.Workspace.Changes
import TestAtlas.Proofs.Workspace.Closure
import TestAtlas.Proofs.Workspace.Consistency
import TestAtlas.Proofs.Workspace.Execution
import TestAtlas.Proofs.Workspace.Ownership
import TestAtlas.Proofs.Workspace.Discovery
import TestAtlas.Proofs.Workspace.Walk
import TestAtlas.Proofs.Workspace.Coverage
import TestAtlas.Proofs.Workspace.Roots
import TestAtlas.Proofs.Workspace.Queries
import TestAtlas.Proofs.Workspace.Memory
import TestAtlas.Proofs.Workspace.Preorder
import TestAtlas.Proofs.Workspace.Packages
import TestAtlas.Proofs.Workspace.RootOrder
import TestAtlas.Proofs.Tree.Edit
import TestAtlas.Proofs.Tree.Order
import TestAtlas.Proofs.Pattern.Matching
import TestAtlas.Proofs.Pattern.Matcher
import TestAtlas.Proofs.Outline.Names
import TestAtlas.Proofs.Outline.Eligibility
import TestAtlas.Proofs.Outline.SuiteSwitch
import TestAtlas.Proofs.Outline.LineForm
import TestAtlas.Proofs.Outline.LinePattern
import TestAtlas.Proofs.Outline.Found
import TestAtlas.Proofs.Outline.Collection
import TestAtlas.Proofs.Outline.Completeness
import TestAtlas.Proofs.Outline.Leaves
import TestAtlas.Proofs.Outline.Lexical
import TestAtlas.Proofs.Outline.Comments
import TestAtlas.Proofs.Outline.LineNumber
import TestAtlas.Proofs.Tree.Reach
import TestAtlas.Proofs.Tree.Fill
import TestAtlas.Proofs.Tree.Reconciliation
import TestAtlas.Proofs.Tree.Diff
import TestAtlas.Proofs.Tree.Ownership
import TestAtlas.Proofs.Tree.Cut
import TestAtlas.Proofs.Tree.Lookup
import TestAtlas.Proofs.Explorer.Order
import TestAtlas.Proofs.Explorer.Expansion
import TestAtlas.Proofs.Explorer.Placement
import TestAtlas.Proofs.Explorer.Removal
import TestAtlas.Proofs.Explorer.Call
import TestAtlas.Proofs.Explorer.Session
import TestAtlas.Proofs.Explorer.Encoding
import TestAtlas.Proofs.Explorer.Layers
import TestAtlas.Proofs.Explorer.Safety
import TestAtlas.Proofs.Explorer.Lookup
import TestAtlas.Proofs.Explorer.Shape
import TestAtlas.Proofs.Explorer.Home
import TestAtlas.Proofs.Explorer.Leaves
import TestAtlas.Proofs.Explorer.Conventions
import TestAtlas.Proofs.Explorer.Serial
import TestAtlas.Proofs.Explorer.Identity
import TestAtlas.Proofs.Explorer.Chain
import TestAtlas.Proofs.Explorer.Opening
import TestAtlas.Proofs.Explorer.Coverage
import TestAtlas.Proofs.Explorer.Unreached
import TestAtlas.Proofs.Explorer.Innermost
import TestAtlas.Proofs.Explorer.Failures
import TestAtlas.Proofs.Explorer.Editing
import TestAtlas.Proofs.Explorer.Effect
import TestAtlas.Proofs.Explorer.Memory
import TestAtlas.Proofs.Explorer.Freshness
import TestAtlas.Proofs.Explorer.Filling
import TestAtlas.Proofs.Explorer.Folders
import TestAtlas.Proofs.Explorer.Reporting
import TestAtlas.Proofs.Explorer.FolderChange
import TestAtlas.Proofs.Explorer.Idempotence
import TestAtlas.Proofs.Explorer.Deletion
import TestAtlas.Proofs.Explorer.Spelling
import TestAtlas.Proofs.Json.Token
import TestAtlas.Proofs.Json.RoundTrip
import TestAtlas.Proofs.Json.Nesting
import TestAtlas.Proofs.Settings.Persistence
import TestAtlas.Proofs.Settings.Checked
import TestAtlas.Proofs.Settings.Strictness
import TestAtlas.Proofs.Log.Sanity
