import TestScribe.Batch
import TestScribe.Chain
import TestScribe.Command
import TestScribe.Disk
import TestScribe.Document.Json
import TestScribe.Document.Value
import TestScribe.Document.Yaml
import TestScribe.Document.Yaml.Cursor
import TestScribe.Document.Yaml.Node
import TestScribe.Document.Yaml.Plain
import TestScribe.Document.Yaml.Scalar
import TestScribe.Document.Yaml.Token
import TestScribe.Emission
import TestScribe.Expression
import TestScribe.Fault
import TestScribe.Formatter
import TestScribe.Legacy
import TestScribe.Literal
import TestScribe.Locator
import TestScribe.Main
import TestScribe.Making
import TestScribe.Naming
import TestScribe.Number.Binary64
import TestScribe.Number.Shortest
import TestScribe.Path
import TestScribe.Script
import TestScribe.Session
import TestScribe.Settings
import TestScribe.Settings.Layers
import TestScribe.Settings.Toml
import TestScribe.Shell
import TestScribe.Shell.Syntax
import TestScribe.Source
import TestScribe.Testcase
import TestScribe.Testcase.Schema
import TestScribe.Text.Case
import TestScribe.Text.Case.Tables
import TestScribe.Text.Cut
import TestScribe.Text.Utf8
import TestScribe.Text.Words
import TestScribe.Validator
import TestScribe.Proofs.LiteralReader
import TestScribe.Proofs.ChainInjective
import TestScribe.Proofs.Expression
import TestScribe.Proofs.Mapping
import TestScribe.Proofs.Promotion
import TestScribe.Proofs.Path
import TestScribe.Proofs.Letters
import TestScribe.Proofs.Chronicle
import TestScribe.Proofs.Naming
import TestScribe.Proofs.Making
import TestScribe.Proofs.Adding
import TestScribe.Proofs.Dependencies
import TestScribe.Proofs.Disk
import TestScribe.Proofs.Operations
import TestScribe.Proofs.Documents
import TestScribe.Proofs.Course
import TestScribe.Proofs.Lookups
import TestScribe.Proofs.Nesting
import TestScribe.Proofs.PlainText
import TestScribe.Proofs.Cycles
import TestScribe.Proofs.Once
import TestScribe.Proofs.Writing
import TestScribe.Proofs.Throughout
import TestScribe.Proofs.Termination
import TestScribe.Proofs.Outlines
import TestScribe.Proofs.Layout
import TestScribe.Proofs.Drawing
import TestScribe.Proofs.Replay
import TestScribe.Proofs.Batches
import TestScribe.Proofs.InputOrder
import TestScribe.Proofs.Records
import TestScribe.Proofs.Aliases
import TestScribe.Proofs.Climbing
import TestScribe.Proofs.Wiping
import TestScribe.Proofs.Listing
import TestScribe.Proofs.Holding
import TestScribe.Proofs.Reports
import TestScribe.Proofs.Renormalizing
import TestScribe.Proofs.Stepwise
import TestScribe.Proofs.Recasting
import TestScribe.Proofs.Callees
import TestScribe.Proofs.Unbroken
import TestScribe.Proofs.Lines
import TestScribe.Proofs.LineStructure
import TestScribe.Proofs.Failures
import TestScribe.Proofs.Classes
import TestScribe.Proofs.Accounting
import TestScribe.Proofs.Spelling
import TestScribe.Proofs.Uniqueness
import TestScribe.Proofs.LegalNames
import TestScribe.Proofs.Notations
import TestScribe.Proofs.NormalForm
import TestScribe.Proofs.Translation
import TestScribe.Proofs.Places
import TestScribe.Proofs.Tidying
import TestScribe.Proofs.LowerCase
import TestScribe.Proofs.Retidying
import TestScribe.Proofs.Importing
import TestScribe.Proofs.References
import TestScribe.Proofs.AttributeNames
import TestScribe.Proofs.Discovery
import TestScribe.Proofs.Roots
import TestScribe.Proofs.Atomicity
import TestScribe.Proofs.ExportedNames
import TestScribe.Proofs.Exports
import TestScribe.Proofs.Indices
import TestScribe.Proofs.Settled
import TestScribe.Proofs.Allotment
import TestScribe.Proofs.Blame
import TestScribe.Proofs.StepFaults
import TestScribe.Proofs.InternalFaults
