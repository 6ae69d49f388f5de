import ScriptLoader.Bundle.Basic
import ScriptLoader.Bundle.Writing
import ScriptLoader.CommandLine.Invocation
import ScriptLoader.CommandLine.Performance
import ScriptLoader.CommandLine.Project
import ScriptLoader.CommandLine.Wording
import ScriptLoader.Config.Basic
import ScriptLoader.Config.Document
import ScriptLoader.Config.Toml
import ScriptLoader.Diagnostic.Basic
import ScriptLoader.Diagnostic.Report
import ScriptLoader.Directive
import ScriptLoader.Error
import ScriptLoader.FileSystem.Basic
import ScriptLoader.FileSystem.Resolver
import ScriptLoader.Loader.Cache
import ScriptLoader.Loader.Code
import ScriptLoader.Loader.Creation
import ScriptLoader.Loader.Execution
import ScriptLoader.Loader.Function
import ScriptLoader.Loader.Platform
import ScriptLoader.Loader.State
import ScriptLoader.Loader.Step
import ScriptLoader.Loader.Unit
import ScriptLoader.Loader.Wave
import ScriptLoader.Main
import ScriptLoader.Number.Shortest
import ScriptLoader.Path
import ScriptLoader.Proofs.Account
import ScriptLoader.Proofs.Balance
import ScriptLoader.Proofs.Barrier
import ScriptLoader.Proofs.Bodies
import ScriptLoader.Proofs.Bounded
import ScriptLoader.Proofs.Caching
import ScriptLoader.Proofs.Changes
import ScriptLoader.Proofs.Chores
import ScriptLoader.Proofs.Closure
import ScriptLoader.Proofs.Completion
import ScriptLoader.Proofs.Conservation
import ScriptLoader.Proofs.Delivery
import ScriptLoader.Proofs.Driving
import ScriptLoader.Proofs.Ending
import ScriptLoader.Proofs.Exactness
import ScriptLoader.Proofs.Exploration
import ScriptLoader.Proofs.Handling
import ScriptLoader.Proofs.History
import ScriptLoader.Proofs.Importing.Answering
import ScriptLoader.Proofs.Importing.Checked
import ScriptLoader.Proofs.Importing.Concurrent
import ScriptLoader.Proofs.Importing.Executed
import ScriptLoader.Proofs.Importing.Executing
import ScriptLoader.Proofs.Importing.Knowing
import ScriptLoader.Proofs.Importing.Pending
import ScriptLoader.Proofs.Importing.Settling
import ScriptLoader.Proofs.Importing.Showing
import ScriptLoader.Proofs.Journal
import ScriptLoader.Proofs.Keys
import ScriptLoader.Proofs.Loading
import ScriptLoader.Proofs.Metering
import ScriptLoader.Proofs.Moves
import ScriptLoader.Proofs.Once
import ScriptLoader.Proofs.Passes
import ScriptLoader.Proofs.Project
import ScriptLoader.Proofs.Quiet
import ScriptLoader.Proofs.Reach
import ScriptLoader.Proofs.Readying
import ScriptLoader.Proofs.Remaining
import ScriptLoader.Proofs.RunOrder
import ScriptLoader.Proofs.Service
import ScriptLoader.Proofs.Sparing
import ScriptLoader.Proofs.Standing
import ScriptLoader.Proofs.Trace
import ScriptLoader.Proofs.Turn
import ScriptLoader.Proofs.Url.Alphabet
import ScriptLoader.Proofs.Url.Paths
import ScriptLoader.Proofs.Url.Text
import ScriptLoader.Proofs.Url.WellFormed
import ScriptLoader.Proofs.Waiting
import ScriptLoader.Proofs.Wave
import ScriptLoader.Rehearsal.LineScript
import ScriptLoader.Rehearsal.Planned
import ScriptLoader.Rehearsal.Session
import ScriptLoader.Rehearsal.Shelf
import ScriptLoader.Rehearsal.Stage
import ScriptLoader.SourceMap
import ScriptLoader.Table
import ScriptLoader.Text.Base64
import ScriptLoader.Text.Lines
import ScriptLoader.Text.Percent
import ScriptLoader.Text.Quoted
import ScriptLoader.Text.Utf16
import ScriptLoader.Text.Utf8
import ScriptLoader.Url.Basic
import ScriptLoader.Url.FilePath
import ScriptLoader.Url.Host
import ScriptLoader.Url.Parser
import ScriptLoader.Url.Path
import ScriptLoader.Value
import ScriptLoader.Proofs.Bundle.Grammar
import ScriptLoader.Proofs.Bundle.RoundTrip
import ScriptLoader.Proofs.Compiling.Fates
import ScriptLoader.Proofs.Compiling.Nesting
import ScriptLoader.Proofs.Compiling.Calls
import ScriptLoader.Proofs.Compiling.Terminating
import ScriptLoader.Proofs.FileSystem.Keeping
import ScriptLoader.Proofs.Making.Stock
import ScriptLoader.Proofs.Making.Working
import ScriptLoader.Proofs.Making.Registry
import ScriptLoader.Proofs.Making.Rebuilding
import ScriptLoader.Proofs.Bundle.Storing
import ScriptLoader.Proofs.Bundle.Targets
import ScriptLoader.Proofs.Bundle.Retrieving
import ScriptLoader.Proofs.Compiling.Gathering
import ScriptLoader.Proofs.Compiling.Preparing
import ScriptLoader.Proofs.Compiling.Bundling
import ScriptLoader.Proofs.FileSystem.Writing
import ScriptLoader.Proofs.Text.Utf8
import ScriptLoader.Proofs.Url.LocalFiles
import ScriptLoader.Proofs.Url.Joining
import ScriptLoader.Proofs.Url.Naming
import ScriptLoader.Proofs.Bundle.Descent
import ScriptLoader.Proofs.Bundle.Containment
import ScriptLoader.Proofs.Bundle.Homes
import ScriptLoader.Proofs.Making.Hosting
import ScriptLoader.Proofs.Making.Forging
import ScriptLoader.Proofs.Making.Calling
import ScriptLoader.Proofs.Resetting.Likeness
import ScriptLoader.Proofs.Resetting.Loaders
import ScriptLoader.Proofs.Resetting.Creating
import ScriptLoader.Proofs.Resetting.Machines
import ScriptLoader.Proofs.Resetting.Closures
import ScriptLoader.Proofs.Resetting.Afresh
import ScriptLoader.Proofs.Text.Base64
import ScriptLoader.Proofs.Text.Utf16
import ScriptLoader.Proofs.Text.Lines
import ScriptLoader.Proofs.Text.Json
import ScriptLoader.Proofs.Compiling.Drafting
import ScriptLoader.Proofs.Directive.Grammar
import ScriptLoader.Proofs.Directive.Mappings
import ScriptLoader.Proofs.Directive.Correspondence
import ScriptLoader.Proofs.Directive.Alignment
import ScriptLoader.Proofs.Listing
import ScriptLoader.Proofs.Blaming
import ScriptLoader.Proofs.Making.Failing
import ScriptLoader.Proofs.FileSystem.Reading
import ScriptLoader.Proofs.FileSystem.Searching
import ScriptLoader.Proofs.Text.Markup
import ScriptLoader.Proofs.PropertyList
