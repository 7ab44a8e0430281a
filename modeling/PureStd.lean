import PureStd.Alloc.Alignment
import PureStd.Alloc.Allocator
import PureStd.Alloc.FreeList
import PureStd.Alloc.HeapSafety
import PureStd.Alloc.Interference
import PureStd.Alloc.Linearization
import PureStd.Alloc.Session
import PureStd.Alloc.ThreadSafety
import PureStd.Alloc.Threads
import PureStd.Collections.CapacityFor
import PureStd.Collections.HashMap
import PureStd.Collections.HashSet
import PureStd.Collections.MapInvariant
import PureStd.Collections.MapRefinement
import PureStd.Collections.MapRun
import PureStd.Collections.Probing
import PureStd.Collections.ReachableTable
import PureStd.Collections.TableGrowth
import PureStd.Collections.TableInvariant
import PureStd.Collections.TableOps
import PureStd.Collections.TableSize
import PureStd.Env
import PureStd.Fs.AppendOnly
import PureStd.Fs.CreateDirAll
import PureStd.Fs.DirListing
import PureStd.Fs.DirPanics
import PureStd.Fs.DirRecords
import PureStd.Fs.Dirs
import PureStd.Fs.File
import PureStd.Fs.FileCalls
import PureStd.Fs.FileCopy
import PureStd.Fs.FileCursor
import PureStd.Fs.FileRoundTrip
import PureStd.Fs.Kernel
import PureStd.Fs.Lookup
import PureStd.Fs.ReadDir
import PureStd.Fs.RemoveDirAll
import PureStd.Fs.RemoveFrame
import PureStd.Fs.RemoveLink
import PureStd.Fs.RemoveReturns
import PureStd.Fs.Volume
import PureStd.Hash.SipHash
import PureStd.Hash.SipHasher
import PureStd.Hash.SipStream
import PureStd.Io.BufReader
import PureStd.Io.BufWriter
import PureStd.Io.Copy
import PureStd.Io.Cursor
import PureStd.Io.LineRetry
import PureStd.Io.Lines
import PureStd.Io.LoopRules
import PureStd.Io.ReadAll
import PureStd.Io.Stdout
import PureStd.Io.StdoutBlocks
import PureStd.Io.Streams
import PureStd.Io.Traits
import PureStd.Io.Vectored
import PureStd.Lib.Assembly
import PureStd.Lib.AssocMap
import PureStd.Lib.BigEndian
import PureStd.Lib.Blocks
import PureStd.Lib.ByteMemory
import PureStd.Lib.CriticalSection
import PureStd.Lib.CyclicRun
import PureStd.Lib.Descent
import PureStd.Lib.Descriptors
import PureStd.Lib.FileTree
import PureStd.Lib.Fuel
import PureStd.Lib.Futex
import PureStd.Lib.LittleEndian
import PureStd.Lib.Machine
import PureStd.Lib.OpenFiles
import PureStd.Lib.Separators
import PureStd.Lib.Slice
import PureStd.Lib.Transition
import PureStd.Lib.Utf8
import PureStd.Lib.WordMask
import PureStd.Lib.ZeroFilled
import PureStd.Net.Dns
import PureStd.Net.DnsMessage
import PureStd.Net.DnsQuery
import PureStd.Net.Resolve
import PureStd.Net.SockAddr
import PureStd.Net.Timeval
import PureStd.Path
import PureStd.Path.Ancestors
import PureStd.Path.Components
import PureStd.Path.Names
import PureStd.Path.Parents
import PureStd.Path.Prefixes
import PureStd.Process.ChildEnv
import PureStd.Process.Command
import PureStd.Process.Marshal
import PureStd.Process.Output
import PureStd.Process.OutputDeadlock
import PureStd.Process.PipePrivacy
import PureStd.Process.Spawn
import PureStd.Process.SpawnFds
import PureStd.Process.SpawnLeaks
import PureStd.Process.Wait
import PureStd.Sync.Barrier
import PureStd.Sync.BarrierGenerations
import PureStd.Sync.BarrierSequence
import PureStd.Sync.BarrierWakes
import PureStd.Sync.Condvar
import PureStd.Sync.Mpsc
import PureStd.Sync.MpscDelivery
import PureStd.Sync.MpscDisconnect
import PureStd.Sync.Mutex
import PureStd.Sync.Once
import PureStd.Sync.OnceInit
import PureStd.Sync.Program
import PureStd.Sync.Runtime
import PureStd.Sync.RwLock
import PureStd.Sync.TryRead
import PureStd.Target
import PureStd.Thread.CloneCode
import PureStd.Thread.CloneStart
import PureStd.Thread.Current
import PureStd.Thread.Park
import PureStd.Thread.ParkTimeout
import PureStd.Thread.Scope
import PureStd.Thread.ScopeLifetime
import PureStd.Thread.ScopeResults
import PureStd.Thread.ScopeWakes
import PureStd.Thread.Sleep
import PureStd.Thread.Spawn
import PureStd.Thread.SpawnSafety
import PureStd.Time
import PureStd.Tls
import PureStd.TlsPrivacy
import PureStd.TlsSlots
