import BlockLens.Cli.FileTree
import BlockLens.Describe
import BlockLens.Main
import BlockLens.Overlay.Edits
import BlockLens.Resolve.Basic
import BlockLens.Proofs.Markup
import BlockLens.Proofs.Workspace.Session
import BlockLens.Proofs.Workspace.Incremental
import BlockLens.Proofs.Source
import BlockLens.Proofs.SourceMap
import BlockLens.Proofs.Template.Expressions
import BlockLens.Proofs.Template.Render
import BlockLens.Proofs.Workspace.Offsets
import BlockLens.Proofs.Overlay.Sound
import BlockLens.Proofs.Overlay.Announce
import BlockLens.Proofs.Overlay.HostEdit
import BlockLens.Proofs.Composite.LastGood
import BlockLens.Proofs.Template.Faithful
import BlockLens.Proofs.Template.Regions
import BlockLens.Proofs.Template.Reader
import BlockLens.Proofs.Template.Tokens
import BlockLens.Proofs.Template.Agreement
import BlockLens.Proofs.Template.Lexing
import BlockLens.Proofs.Overlay.Failure
import BlockLens.Proofs.Composite.Places
import BlockLens.Proofs.Markup.Printed
import BlockLens.Proofs.Markup.Nesting
import BlockLens.Proofs.Markup.Stable
import BlockLens.Proofs.Markup.RoundTrip
import BlockLens.Proofs.Markup.EndTag
import BlockLens.Proofs.Markup.Cut
import BlockLens.Proofs.Markup.Order
import BlockLens.Proofs.Markup.Scanner
import BlockLens.Proofs.Markup.Stretches
import BlockLens.Proofs.Markup.Sound
import BlockLens.Proofs.FileKind
import BlockLens.Proofs.Composite.Eviction
import BlockLens.Proofs.Composite.StandIn
import BlockLens.Proofs.Composite.Lifetime
import BlockLens.Proofs.Composite.Lookup
import BlockLens.Proofs.Composite.Unfinished
import BlockLens.Proofs.Resolve.Lead
import BlockLens.Proofs.Resolve.Search
import BlockLens.Proofs.Resolve.Trail
import BlockLens.Proofs.Resolve.Ends
import BlockLens.Proofs.Resolve.Results
import BlockLens.Proofs.Resolve.Spans
import BlockLens.Proofs.MainModule
import BlockLens.Proofs.MainModule.Declarations
import BlockLens.Proofs.Overlay.Component
import BlockLens.Proofs.Overlay.Files
import BlockLens.Proofs.Overlay.Works
import BlockLens.Proofs.Overlay.Versions
import BlockLens.Proofs.Overlay.Imports
import BlockLens.Proofs.Overlay.InStep
import BlockLens.Proofs.Overlay.Forwarding
import BlockLens.Proofs.Overlay.Connected
import BlockLens.Proofs.Template.Scanner
import BlockLens.Proofs.Template.WordScanner
import BlockLens.Proofs.Template.Safe
import BlockLens.Proofs.Outline.Carried
import BlockLens.Proofs.Outline.Adopted
import BlockLens.Proofs.Overlay.Output
import BlockLens.Proofs.SourceMap.Inverse
import BlockLens.Proofs.Text.Base64
import BlockLens.Proofs.Text.Delimited
import BlockLens.Proofs.Overlay.Marker
import BlockLens.Proofs.Overlay.Decoding
import BlockLens.Proofs.Markup.LetterCase
import BlockLens.Proofs.Overlay.Subscribers
import BlockLens.Proofs.Watchers.Table
