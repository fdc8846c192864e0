import Deriver.Bounds.Header
import Deriver.Build.Basic
import Deriver.Build.Incremental
import Deriver.Build.Run
import Deriver.Cache.Basic
import Deriver.Cache.Open
import Deriver.Cache.Sources
import Deriver.Casing
import Deriver.Code.Basic
import Deriver.Command.Basic
import Deriver.Command.Inspect
import Deriver.Command.Line
import Deriver.Command.Run
import Deriver.Config.Basic
import Deriver.Config.Load
import Deriver.Console.Message
import Deriver.Console.Progress
import Deriver.Console.Report
import Deriver.Console.Table
import Deriver.Decl.Basic
import Deriver.Decl.Generics
import Deriver.Decl.Meta
import Deriver.Decl.Ty
import Deriver.Derive.Access
import Deriver.Derive.Arithmetic
import Deriver.Derive.Basic
import Deriver.Derive.Catalogue
import Deriver.Derive.Construction
import Deriver.Derive.Conversion
import Deriver.Derive.Display
import Deriver.Derive.Error
import Deriver.Derive.File
import Deriver.Derive.Parsing
import Deriver.Derive.Variants
import Deriver.Diagnostic.Basic
import Deriver.Diagnostic.Cause
import Deriver.Editor.Position
import Deriver.Editor.Session
import Deriver.Editor.Symbol
import Deriver.Files.Name
import Deriver.Files.Tree
import Deriver.Format.Use
import Deriver.Helper.Options
import Deriver.Json.Basic
import Deriver.Json.Parse
import Deriver.Json.Render
import Deriver.Main
import Deriver.Number.Binary64
import Deriver.Number.Duration
import Deriver.Number.Integer
import Deriver.Number.Timestamp
import Deriver.Parse.Basic
import Deriver.Parse.File
import Deriver.Parse.Item
import Deriver.Parse.Ty
import Deriver.Position
import Deriver.Proofs.Bounds.Legible
import Deriver.Proofs.Bounds.Mentions
import Deriver.Proofs.Build.Compose
import Deriver.Proofs.Build.Repeated
import Deriver.Proofs.Build.Sources
import Deriver.Proofs.Build.Upkeep
import Deriver.Proofs.Build.Workers
import Deriver.Proofs.Cache.Memory
import Deriver.Proofs.Casing
import Deriver.Proofs.Derive.Accessors
import Deriver.Proofs.Derive.Bindings
import Deriver.Proofs.Derive.Coherence
import Deriver.Proofs.Derive.Composed
import Deriver.Proofs.Derive.Discriminants
import Deriver.Proofs.Derive.Equality
import Deriver.Proofs.Derive.Exhaustive
import Deriver.Proofs.Derive.Literals
import Deriver.Proofs.Derive.Parsing
import Deriver.Proofs.Derive.Payload
import Deriver.Proofs.Derive.ReadBack
import Deriver.Proofs.Derive.Sources
import Deriver.Proofs.Derive.Values
import Deriver.Proofs.Derive.Writing
import Deriver.Proofs.Derive.Written
import Deriver.Proofs.Diagnostic.Snippet
import Deriver.Proofs.Editor.Position
import Deriver.Proofs.Editor.Session
import Deriver.Proofs.Format.Calls
import Deriver.Proofs.Format.Parts
import Deriver.Proofs.Helper.Consistency
import Deriver.Proofs.Helper.Order
import Deriver.Proofs.Parse.Attached
import Deriver.Proofs.Parse.Attribute
import Deriver.Proofs.Parse.Declared
import Deriver.Proofs.Parse.Detached
import Deriver.Proofs.Parse.Reparse
import Deriver.Proofs.Parse.Runs
import Deriver.Proofs.Select.Resolution
import Deriver.Proofs.Similar
import Deriver.Proofs.Token.Apart
import Deriver.Proofs.Token.Fragment
import Deriver.Proofs.Token.Inset
import Deriver.Proofs.Token.Integer
import Deriver.Proofs.Token.Name
import Deriver.Proofs.Token.Quoted
import Deriver.Proofs.Token.Spanning
import Deriver.Proofs.Watch.Cover
import Deriver.Select.Basic
import Deriver.Server.Basic
import Deriver.Server.Params
import Deriver.Similar
import Deriver.Support.Crate
import Deriver.Support.Source
import Deriver.Text.Base64
import Deriver.Text.Basic
import Deriver.Text.Casing
import Deriver.Text.Class.Cased
import Deriver.Text.Class.Letter
import Deriver.Text.Quoted
import Deriver.Text.Round
import Deriver.Text.Utf8
import Deriver.Token.Basic
import Deriver.Token.Identifier
import Deriver.Token.Scan
import Deriver.Toml.Clock
import Deriver.Toml.Read
import Deriver.Toml.Syntax
import Deriver.Url
import Deriver.Watch.Watcher
import Deriver.Yaml.Basic
import Deriver.Yaml.Event
import Deriver.Yaml.Read
import Deriver.Yaml.Scalar
import Deriver.Yaml.Scan
import Deriver.Yaml.Source
import Deriver.Yaml.Token
import Deriver.Yaml.Write
