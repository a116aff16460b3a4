import LicenseAudit.Calendar
import LicenseAudit.Catalog
import LicenseAudit.Catalog.Default
import LicenseAudit.Collection
import LicenseAudit.Command
import LicenseAudit.CommandLine
import LicenseAudit.CommandLine.Arguments
import LicenseAudit.CommandLine.Help
import LicenseAudit.CommandLine.Request
import LicenseAudit.CommandLine.Session
import LicenseAudit.Compliance
import LicenseAudit.Config
import LicenseAudit.Config.Reading
import LicenseAudit.Coverage
import LicenseAudit.Coverage.Pattern
import LicenseAudit.Coverage.Walk
import LicenseAudit.Decimal.Double
import LicenseAudit.Decimal.Shortest
import LicenseAudit.Dep5
import LicenseAudit.Dep5.Reading
import LicenseAudit.Environment
import LicenseAudit.Event
import LicenseAudit.Event.Log
import LicenseAudit.Evidence
import LicenseAudit.Expression
import LicenseAudit.Expression.Reading
import LicenseAudit.Expression.Token
import LicenseAudit.Expression.Validation
import LicenseAudit.Failure
import LicenseAudit.Failure.Display
import LicenseAudit.Fields
import LicenseAudit.Glob.Pattern
import LicenseAudit.Glob.Segment
import LicenseAudit.Inventory
import LicenseAudit.Inventory.Directory
import LicenseAudit.Issue
import LicenseAudit.Json
import LicenseAudit.Main
import LicenseAudit.Manifest
import LicenseAudit.Manifest.Reading
import LicenseAudit.Notice
import LicenseAudit.Path
import LicenseAudit.Pool
import LicenseAudit.Proofs.Entry
import LicenseAudit.Proofs.Evidence
import LicenseAudit.Proofs.Expression.Grammar
import LicenseAudit.Proofs.Expression.Spelling
import LicenseAudit.Proofs.Resolution
import LicenseAudit.Proofs.Text.Order
import LicenseAudit.Proofs.Text.Search
import LicenseAudit.Report
import LicenseAudit.Resolution
import LicenseAudit.Scan
import LicenseAudit.Tag
import LicenseAudit.Tag.Closer
import LicenseAudit.Tag.IgnoreRegion
import LicenseAudit.Text.Blank
import LicenseAudit.Text.Digits
import LicenseAudit.Text.Order
import LicenseAudit.Text.Position
import LicenseAudit.Text.Search
import LicenseAudit.Text.Similarity
import LicenseAudit.Text.Units
import LicenseAudit.Text.Utf8
import LicenseAudit.Toml
import LicenseAudit.Toml.Document
import LicenseAudit.Toml.Layout
import LicenseAudit.Tree
import LicenseAudit.Vcs
import LicenseAudit.Yaml
import LicenseAudit.Yaml.Collection
import LicenseAudit.Yaml.Cursor
import LicenseAudit.Yaml.Document
import LicenseAudit.Yaml.Node
import LicenseAudit.Yaml.Property
import LicenseAudit.Yaml.Scalar
import LicenseAudit.Yaml.Tag
import LicenseAudit.Proofs.Tag.IgnoreRegion
import LicenseAudit.Proofs.Expression.Validation
import LicenseAudit.Proofs.Inventory
import LicenseAudit.Proofs.Compliance
import LicenseAudit.Proofs.Pool
import LicenseAudit.Scan.Workers
import LicenseAudit.Proofs.Scan.Workers
import LicenseAudit.Proofs.Path
import LicenseAudit.Proofs.Coverage.Pattern
import LicenseAudit.Proofs.Coverage.Walk
import LicenseAudit.Proofs.Scan.Restriction
import LicenseAudit.Proofs.Coverage.LicenseDirectory
import LicenseAudit.Proofs.Coverage.Manifests
import LicenseAudit.Proofs.Scan.Isolation
import LicenseAudit.Proofs.Path.Steps
import LicenseAudit.Proofs.Report
import LicenseAudit.Proofs.Scan.Verdict
import LicenseAudit.Proofs.Expression.Identifier
import LicenseAudit.Proofs.Scan.StoredIdentifier
import LicenseAudit.Proofs.Tree.Follow
import LicenseAudit.Proofs.Tree.Erase
import LicenseAudit.Proofs.Coverage.Removal
import LicenseAudit.Proofs.Scan.Removal
import LicenseAudit.Proofs.Scan.BrokenManifest
import LicenseAudit.Proofs.Expression.SyntaxError
import LicenseAudit.Proofs.Scan.Canonical
import LicenseAudit.Proofs.Glob.Language
import LicenseAudit.Proofs.Glob.Match
import LicenseAudit.Proofs.Scan.Assurance
import LicenseAudit.Proofs.Tag.Closer
import LicenseAudit.Proofs.Tag.Line
import LicenseAudit.Proofs.Tag.Segmentation
import LicenseAudit.Proofs.Tag.Junction
import LicenseAudit.Proofs.Collection
import LicenseAudit.Proofs.Tag.Union
import LicenseAudit.Proofs.Text.Blank
import LicenseAudit.Proofs.Notice.Year
import LicenseAudit.Proofs.Notice.RoundTrip
import LicenseAudit.Proofs.Notice.Stability
import LicenseAudit.Proofs.Notice.Merge
import LicenseAudit.Proofs.Notice.Permutation
import LicenseAudit.Proofs.Resolution.Contribution
import LicenseAudit.Proofs.Resolution.Override
import LicenseAudit.Proofs.Inventory.FileName
import LicenseAudit.Proofs.Dep5.Lines
import LicenseAudit.Proofs.Dep5.Draft
import LicenseAudit.Proofs.Dep5.RoundTrip
import LicenseAudit.Proofs.Inventory.Duplicate
import LicenseAudit.Proofs.Pool.Record
import LicenseAudit.Proofs.Command
import LicenseAudit.Proofs.Scan.Unread
import LicenseAudit.Proofs.Expression.Detail
import LicenseAudit.Proofs.Expression.Occurrence
import LicenseAudit.Proofs.Expression.Standing
import LicenseAudit.Proofs.Expression.Reference
import LicenseAudit.Proofs.Text.Units
import LicenseAudit.Proofs.Dep5.Match
import LicenseAudit.Proofs.Coverage.Location
import LicenseAudit.Proofs.Tag.Stripping
import LicenseAudit.Proofs.Notice.Announcement
import LicenseAudit.Proofs.Notice.Token
import LicenseAudit.Proofs.Notice.Notation
