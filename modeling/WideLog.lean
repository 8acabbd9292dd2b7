import WideLog.Count
import WideLog.Core.CounterRuns
import WideLog.Serialize.Emit
import WideLog.Serialize.Agree
import WideLog.Context
import WideLog.Macros.Accept
import WideLog.Macros.Program
import WideLog.Macros.Resolve
import WideLog.Macros.AutoFields
import WideLog.Serialize.Names
import WideLog.Macros.Duplicates
import WideLog.Scope.Innermost
import WideLog.Hooks.Mirror
import WideLog.Hooks.Routing
import WideLog.Scope.Isolation
import WideLog.Macros.Grammar
import WideLog.Macros.Defaults
import WideLog.Macros.Panics
import WideLog.Scope.Service
import WideLog.Scope.Middleware
import WideLog.Stdout.Delivery
import WideLog.Hooks.Capture
import WideLog.Core.Duration
import WideLog.Macros.Integers
import WideLog.Macros.Strings
import WideLog.Macros.DurationMarker
import WideLog.Macros.Variants
import WideLog.Stdout.Window
import WideLog.Core.Content
import WideLog.Core.Conflict
import WideLog.Serialize.Content
import WideLog.Macros.Content
import WideLog.Serialize.Chunks
import WideLog.Macros.Overrides
import WideLog.Macros.Print
import WideLog.Macros.Compiles
import WideLog.Macros.Renamed
import WideLog.Process.Delivery
import WideLog.Process.Threads
import WideLog.Process.Tasks
import WideLog.Hooks.Lexical
import WideLog.Hooks.Tracing
import WideLog.Stdout.Progress
import WideLog.Stdout.Loss
