import Javex.Basic
import Javex.Codec.Json
import Javex.Codec.Decoder
import Javex.Codec.Utf8
import Javex.Codec.Utf16
import Javex.Codec.Stringify
import Javex.Codec.Lossy
import Javex.Codec.Extent
import Javex.ForMathlib.Except
import Javex.ForMathlib.Checked
import Javex.Options
import Javex.Options.Accepted
import Javex.Transition.System
import Javex.Transition.Pool
import Javex.Compile.Deadline
import Javex.Compile.Sound
import Javex.Compile.Once
import Javex.ForMathlib.AList
import Javex.ForMathlib.Mailbox
import Javex.ForMathlib.Recency
import Javex.Bpf.Classic
import Javex.Native.Cache
import Javex.Native.CacheBounds
import Javex.Native.Store
import Javex.Native.Streams
import Javex.Native.Memories
import Javex.Native.Execution
import Javex.Native.Quotas
import Javex.Native.Diagnostics
import Javex.Runtime.Server
import Javex.Runtime.Admission
import Javex.Runtime.Requests
import Javex.Isolated.Receive
import Javex.Isolated.Request
import Javex.Isolated.Grammar
import Javex.Isolated.Acceptance
import Javex.Isolated.LateReply
import Javex.Worker.Seccomp
import Javex.Worker.Request
import Javex.Worker.Protocol
import Javex.Worker.Supervisor
import Javex.Worker.Relay
import Javex.Worker.Inbound
import Javex.Worker.OwnStatus
import Javex.Worker.Pipes
import Javex.Worker.Honest
import Javex.Callbacks.Results
import Javex.Callbacks.Sizes
import Javex.Callbacks.Broker
import Javex.Callbacks.Run
import Javex.Callbacks.Books
import Javex.Callbacks.Reference
import Javex.Callbacks.Frames
import Javex.Callbacks.Quotas
import Javex.Callbacks.Cleanup
import Javex.Callbacks.Ending
import Javex.Callbacks.Replies
import Javex.Callbacks.Failures
import Javex.Bridge.Guest
import Javex.Bridge.Surrogates
import Javex.Bridge.Session
import Javex.Bridge.Correlation
import Javex.Bridge.Completions
import Javex.Bridge.Counting
import Javex.Bridge.Provider
import Javex.Bridge.Reentrancy
import Javex.Bridge.RequestLimit
import Javex.Bridge.Terminal
import Javex.Backends.Execution
import Javex.Backends.Session
import Javex.Backends.Faithful
import Javex.Backends.Heard
import Javex.Backends.Agreement
import Javex.Backends.Deliverable
import Javex.Backends.Transport
import Javex.Wasm.Memory
import Javex.Wasm.Straight
import Javex.Wasm.Module
import Javex.Compiler.Wrapper
import Javex.Wasm.Heap
import Javex.Plugin.Abi
import Javex.Native.Ends
import Javex.Plugin.Blocks
import Javex.Plugin.Exchange
import Javex.Plugin.Provider
import Javex.Compiler.Source
import Javex.Compiler.Permits
import Javex.Worker.Startup
import Javex.Transition.Fairness
import Javex.Worker.Deadline
import Javex.Compile.Module
import Javex.Backends.Compile
import Javex.Runtime.Modules
import Javex.Transition.TryLock
import Javex.Plugin.Resource
import Javex.Runtime.Liveness
import Javex.Backends.Engine
import Javex.Runtime.Cancel
