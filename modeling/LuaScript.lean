import LuaScript.Lib.Fallible
import LuaScript.Lib.Scan
import LuaScript.Lib.Escape
import LuaScript.Lib.Pieces
import LuaScript.Lib.Bits
import LuaScript.CType
import LuaScript.LStrLib
import LuaScript.Pattern
import LuaScript.GSub
import LuaScript.Hex
import LuaScript.SmartHexDump
import LuaScript.Percent
import LuaScript.Base64
import LuaScript.Lib.Search
import LuaScript.Exception
import LuaScript.LParser
import LuaScript.Lib.Stateful
import LuaScript.LState
import LuaScript.LApi
import LuaScript.ArgT
import LuaScript.LDo
import LuaScript.CallDiscipline
import LuaScript.Unwind
import LuaScript.Callback
import LuaScript.LVm
import LuaScript.Chunk
import LuaScript.Lua
import LuaScript.ExecRuns
import LuaScript.Variables
import LuaScript.StackHeight
import LuaScript.Frames
import LuaScript.ScriptErrors
import LuaScript.Slots
import LuaScript.LCode
import LuaScript.Registration
import LuaScript.Namespaces
import LuaScript.Lib.Links
import LuaScript.Lib.Scatter
import LuaScript.LObject
import LuaScript.LTable
import LuaScript.TableChains
import LuaScript.NewKey
import LuaScript.Rehash
import LuaScript.Resize
import LuaScript.Tables
import LuaScript.TableRuns
import LuaScript.Traversal
import LuaScript.Boundary
import LuaScript.Lib.Tricolour
import LuaScript.Marked
import LuaScript.GCObject
import LuaScript.GCMark
import LuaScript.LFunc
import LuaScript.LGc
import LuaScript.Marking
import LuaScript.Propagation
import LuaScript.GCInvariant
import LuaScript.MarkPhase
import LuaScript.PropagateAll
import LuaScript.Finalizers
import LuaScript.WeakTables
import LuaScript.Atomic
import LuaScript.GCChanges
import LuaScript.Close
import LuaScript.Sweep
import LuaScript.Stores
import LuaScript.Cycle
import LuaScript.Creation
import LuaScript.Mutator
import LuaScript.CollectorRuns
import LuaScript.Collections
