import Sylar.Foundation.Run
import Sylar.Foundation.Coroutine
import Sylar.Foundation.Keyed
import Sylar.Foundation.Fallible
import Sylar.Foundation.Fuel
import Sylar.Foundation.Ofstream
import Sylar.Foundation.Interleave
import Sylar.Fiber.Machine
import Sylar.Fiber.Calls
import Sylar.Fiber.Coroutines
import Sylar.Fiber.MainFiber
import Sylar.Fiber.Finished
import Sylar.Fiber.Invariants
import Sylar.Fiber.References
import Sylar.Fiber.Ownership
import Sylar.Fiber.Transfers
import Sylar.Fiber.Lifetime
import Sylar.Fiber.Released
import Sylar.Fiber.Abandoned
import Sylar.Fiber.Threads
import Sylar.Log.Event
import Sylar.Log.Formatter
import Sylar.Log.Pattern
import Sylar.Log.Origins
import Sylar.Log.Bounds
import Sylar.Log.Escapes
import Sylar.Log.Logger
import Sylar.Log.Names
import Sylar.Log.Objects
import Sylar.Log.Define
import Sylar.Log.Initer
import Sylar.Log.History
import Sylar.Log.Reload
import Sylar.Log.Installed
import Sylar.Log.Declared
import Sylar.Log.Calls
import Sylar.Log.Routing
import Sylar.Log.Threads
import Sylar.Log.Frame
import Sylar.Log.Inherit
import Sylar.Yaml.Node
import Sylar.Log.Convert
import Sylar.Log.Dump
import Sylar.Log.Restore
import Sylar.Log.FileAppender
import Sylar.Log.Buffer
import Sylar.Config.ConfigVar
import Sylar.Config.Registry
import Sylar.Config.Aliases
import Sylar.Config.Binding
import Sylar.Config.SetValue
import Sylar.Config.Loading
import Sylar.Config.Listeners
import Sylar.Foundation.Unordered
import Sylar.Foundation.Locks
import Sylar.Locking.Programs
import Sylar.Locking.Order
import Sylar.Foundation.Ranking
import Sylar.Locking.Callbacks
import Sylar.Thread.Object
import Sylar.Thread.CASLock
import Sylar.Foundation.Readers
import Sylar.Thread.RWMutex
import Sylar.Thread.Guarded
import Sylar.Thread.Startup
import Sylar.Thread.Lifetime
import Sylar.Yaml.Text
import Sylar.Config.Containers
import Sylar.Config.Outcomes
import Sylar.Config.Strings
import Sylar.Config.Threads
import Sylar.Config.Heard
import Sylar.Config.Visit
import Sylar.Foundation.Sections
import Sylar.Config.Case
import Sylar.Log.Documents
import Sylar.Log.Columns
import Sylar.Log.Fibers
import Sylar.Log.Agreement
import Sylar.Foundation.Separated
import Sylar.Foundation.Broadcast
