import Retrofit.Bytes
import Retrofit.Opcode
import Retrofit.Instruction
import Retrofit.Code
import Retrofit.Instruction.Relocation
import Retrofit.Instruction.Short
import Retrofit.Instruction.Listing
import Retrofit.ClassName
import Retrofit.Descriptor
import Retrofit.Constant
import Retrofit.Pool
import Retrofit.Attribute
import Retrofit.Attribute.Code
import Retrofit.Attribute.Frame
import Retrofit.ClassFile
import Retrofit.Body
import Retrofit.Body.OffsetMap
import Retrofit.Body.Layout
import Retrofit.Unit
import Retrofit.CallSite
import Retrofit.Recipe
import Retrofit.Lowering
import Retrofit.Patch
import Retrofit.Path
import Retrofit.Store
import Retrofit.Packed
import Retrofit.Checksum
import Retrofit.Checksum.Sha256
import Retrofit.Checksum.XxHash
import Retrofit.Compression.Bits
import Retrofit.Compression.Window
import Retrofit.Compression.PrefixCode
import Retrofit.Compression.Deflate
import Retrofit.Compression.Bzip2.Shuffle
import Retrofit.Compression.Bzip2
import Retrofit.Compression.StateCode
import Retrofit.Compression.Zstandard.Literals
import Retrofit.Compression.Zstandard.Sequences
import Retrofit.Compression.Zstandard
import Retrofit.Compression.RangeReader
import Retrofit.Compression.Lzma
import Retrofit.Compression.Xz
import Retrofit.Archive.Text
import Retrofit.Archive.Entry
import Retrofit.Archive.Extra
import Retrofit.Archive.Directory
import Retrofit.Archive.Packing
import Retrofit.Archive
import Retrofit.Failure
import Retrofit.Event
import Retrofit.ClassPath
import Retrofit.Loader
import Retrofit.Discovery
import Retrofit.Substitution
import Retrofit.Run
import Retrofit.Workers
import Retrofit.Options
import Retrofit.Command
import Retrofit.Main
import Retrofit.Proofs.Reading
import Retrofit.Proofs.Instruction.Codec
import Retrofit.Proofs.CodeArray
import Retrofit.Proofs.CodeArray.RoundTrip
import Retrofit.Proofs.Descriptor
import Retrofit.Proofs.Descriptor.Positions
import Retrofit.Proofs.Instruction.Relocation
import Retrofit.Proofs.Body.Layout
import Retrofit.Proofs.Body.Splicing
import Retrofit.Proofs.Body.Loading
import Retrofit.Proofs.Body.ControlFlow
import Retrofit.Proofs.Body.Revising
import Retrofit.Proofs.Body.Order
import Retrofit.Proofs.Body.Guards
import Retrofit.Proofs.Body.Frames
import Retrofit.Proofs.Body.Distance
import Retrofit.Proofs.Body.Placement
import Retrofit.Proofs.Body.Increasing
import Retrofit.Proofs.Body.Obstruction
import Retrofit.Proofs.Body.DebugTables
import Retrofit.Proofs.Body.Untouched
import Retrofit.Proofs.Patch
import Retrofit.Proofs.CallSite
import Retrofit.Proofs.Substitution
import Retrofit.Proofs.Recipe.Machine
import Retrofit.Proofs.Recipe.BuildsList
import Retrofit.Proofs.Attribute
import Retrofit.Proofs.Attribute.Frame
import Retrofit.Proofs.Attribute.Content
import Retrofit.Proofs.Constant
import Retrofit.Proofs.ClassFile
import Retrofit.Proofs.Pool.Growth
import Retrofit.Proofs.Lowering
import Retrofit.Proofs.Pool.Naming
import Retrofit.Proofs.Pool.Members
import Retrofit.Proofs.Pool.Interning
import Retrofit.Proofs.Recipe.Selection
import Retrofit.Proofs.Recipe.Lowering
import Retrofit.Proofs.Recipe.Calls
import Retrofit.Proofs.Body.Reloading
import Retrofit.Proofs.Unit.Loading
import Retrofit.Proofs.Unit.Rewriting
import Retrofit.Proofs.Unit.Emission
import Retrofit.Proofs.Unit.AnyOrder
import Retrofit.Proofs.Unit.Scanning
import Retrofit.Proofs.Unit.Rescanning
import Retrofit.Proofs.Unit.Settling
import Retrofit.Proofs.Instruction.Usage
import Retrofit.Proofs.Recipe.Profile
import Retrofit.Proofs.Lowering.Meaning
import Retrofit.Proofs.Lowering.Pushing
import Retrofit.Proofs.Unit.Reverting
import Retrofit.Proofs.Unit.Outcomes
import Retrofit.Proofs.Unit.Headroom
import Retrofit.Proofs.Unit.Limits
import Retrofit.Proofs.Unit.Descriptors
import Retrofit.Proofs.Unit.Replacements
import Retrofit.Proofs.Path
import Retrofit.Proofs.Store
import Retrofit.Proofs.Store.AnyOrder
import Retrofit.Proofs.Path.Inside
import Retrofit.Proofs.Store.Below
import Retrofit.Proofs.Store.WellNamed
import Retrofit.Proofs.Discovery
import Retrofit.Proofs.Loader
import Retrofit.Proofs.Loader.History
import Retrofit.Proofs.Loader.OneInstance
import Retrofit.Proofs.Run.Processing
import Retrofit.Proofs.Run.Reports
import Retrofit.Proofs.Run.Steady
import Retrofit.Proofs.Run.Files
import Retrofit.Proofs.Workers
import Retrofit.Proofs.Workers.Sharing
import Retrofit.Proofs.Workers.Turns
import Retrofit.Proofs.Workers.Schedules
import Retrofit.Proofs.Workers.Runs
import Retrofit.Proofs.Run.Completeness
import Retrofit.Proofs.Run.PassThrough
import Retrofit.Proofs.Run.Independence
