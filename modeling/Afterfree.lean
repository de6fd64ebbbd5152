import Afterfree.Codec
import Afterfree.Common
import Afterfree.Encoding
import Afterfree.Lib.Filter
import Afterfree.Lib.Fixpoint
import Afterfree.Lib.Footprint
import Afterfree.Lib.Machine
import Afterfree.Lib.Search
import Afterfree.Lib.Span
import Afterfree.Lib.Weak
import Afterfree.Lib.Worklist
import Afterfree.Loops.Affine
import Afterfree.Loops.ReadPlan
import Afterfree.Native.Alignment
import Afterfree.Native.Arenas
import Afterfree.Native.Budget
import Afterfree.Native.Calls
import Afterfree.Native.Compile
import Afterfree.Native.Decode
import Afterfree.Native.Entry
import Afterfree.Native.Fused
import Afterfree.Native.Interpreter
import Afterfree.Native.Liveness
import Afterfree.Native.Pieces
import Afterfree.Native.Ranges
import Afterfree.Native.Reference
import Afterfree.Native.Replay
import Afterfree.Native.Simulation
import Afterfree.Native.Slots
import Afterfree.Native.Streaming
import Afterfree.Native.Unwind
import Afterfree.Native.Validation
import Afterfree.Native.Windows
import Afterfree.Native.X86
import Afterfree.Preload.Backoff
import Afterfree.Preload.TemplateCache
import Afterfree.Protocol.Agreement
import Afterfree.Protocol.Dialogue
import Afterfree.Protocol.Framing
import Afterfree.Protocol.Health
import Afterfree.Protocol.Registration
import Afterfree.Protocol.Soundness
import Afterfree.Protocol.System
import Afterfree.Recording.Bounds
import Afterfree.Recording.Capture
import Afterfree.Recording.Counting
import Afterfree.Recording.Dependencies
import Afterfree.Recording.Emulator
import Afterfree.Recording.Finish
import Afterfree.Recording.Inline
import Afterfree.Recording.Limits
import Afterfree.Recording.Masks
import Afterfree.Recording.Regions
import Afterfree.Recording.Runs
import Afterfree.Recording.Snapshots
import Afterfree.Recording.Templates
import Afterfree.Recording.Words
import Afterfree.Recording.Writes
import Afterfree.Runtime.Accounting
import Afterfree.Runtime.Api
import Afterfree.Runtime.Availability
import Afterfree.Runtime.Changes
import Afterfree.Runtime.Compared
import Afterfree.Runtime.Decompose
import Afterfree.Runtime.Invariants
import Afterfree.Runtime.Lookup
import Afterfree.Runtime.Operations
import Afterfree.Runtime.Pager
import Afterfree.Runtime.Policy
import Afterfree.Runtime.Prefault
import Afterfree.Runtime.Recipes
import Afterfree.Runtime.Representation
import Afterfree.Runtime.State
import Afterfree.Runtime.Statistics
import Afterfree.Runtime.Submit
import Afterfree.Runtime.Transparency
import Afterfree.Worker.Backing
import Afterfree.Worker.Checked
import Afterfree.Worker.Emulation
import Afterfree.Worker.Loop
import Afterfree.Worker.Refinement
import Afterfree.Worker.Sandbox
import Afterfree.Worker.Server
import Afterfree.Worker.Verified
import Afterfree.Wrapping
