import Clox.Lib.Layout
import Clox.Lib.Except
import Clox.Lib.Linked
import Clox.Lib.Separators
import Clox.Bytecode.OpCode
import Clox.Vm.Value
import Clox.Vm.Arithmetic
import Clox.Bytecode.Iseq
import Clox.Bytecode.LinkedInsns
import Clox.Compiler.Optimizer
import Clox.Compiler.Edits
import Clox.Compiler.Jumps
import Clox.Ast.Node
import Clox.Compiler.State
import Clox.Compiler.Emit
import Clox.Compiler.SideTables
import Clox.Compiler.Growth
import Clox.Compiler.Defaults
import Clox.Vm.ClassHeap
import Clox.Vm.CallSites
import Clox.Vm.Constants
import Clox.Vm.CatchNames
import Clox.Vm.ClassChains
import Clox.Vm.Super
import Clox.Vm.OneOrder
import Clox.Vm.Locals
import Clox.Vm.OneValue
import Clox.Vm.OpenUpvalues
import Clox.Compiler.Closures
import Clox.Compiler.Scoping
import Clox.Compiler.Identifiers
import Clox.Vm.Throw
import Clox.Vm.Dispatch
import Clox.Vm.Ensure
import Clox.Vm.EnsureOnce
import Clox.Vm.Activity
import Clox.Vm.Balanced
import Clox.Vm.Return
import Clox.Vm.ThisRestored
import Clox.Vm.SplatArgs
import Clox.Vm.Operands
import Clox.Vm.Bindings
import Clox.Vm.BlockScope
import Clox.Vm.LastValue
import Clox.Compiler.OnceInOrder
import Clox.Vm.Expressions
import Clox.Compiler.ExprCode
import Clox.Vm.VarDecls
import Clox.Compiler.Declarations
import Clox.Compiler.ExprEmit
import Clox.Compiler.ExprLabels
import Clox.Compiler.ExprOptimized
import Clox.Compiler.FixedPoint
import Clox.Compiler.Folding
import Clox.Lib.Probing
import Clox.Runtime.Table
import Clox.Lib.Copying
import Clox.Lib.Displacement
import Clox.Lib.Gap
import Clox.Runtime.TableLoad
import Clox.Runtime.Rehash
import Clox.Runtime.ArrayBlocks
import Clox.Runtime.Trimming
import Clox.Runtime.WeakTable
import Clox.Runtime.Printing
import Clox.Parser.Heredoc
import Clox.Parser.Scanner
import Clox.Parser.Scanning
import Clox.Parser.Lines
import Clox.Parser.Interpolation
import Clox.Parser.Tokens
import Clox.Runtime.MapEach
import Clox.Runtime.StringEdits
import Clox.Runtime.Strings
import Clox.Runtime.Hashing
import Clox.Gc.Heap
import Clox.Gc.FreeList
import Clox.Lib.Worklist
import Clox.Gc.Mark
import Clox.Gc.Reachable
import Clox.Gc.Finalizers
import Clox.Gc.Reaping
import Clox.Lib.Interleaving
import Clox.Threads.Machine
import Clox.Threads.Exclusion
import Clox.Threads.WakeUp
import Clox.Threads.Mutexes
import Clox.Lib.Commands
import Clox.Lib.Sharing
import Clox.Lib.Sorting
import Clox.Lib.Questions
import Clox.Runtime.Objects
import Clox.Runtime.Natives
import Clox.Runtime.ContainerRuns
import Clox.Runtime.CopyOnWrite
import Clox.Runtime.Independent
import Clox.Runtime.Signals
import Clox.Runtime.Sizes
import Clox.Runtime.Sorting
import Clox.Runtime.Cycles
import Clox.Runtime.Extension
import Clox.Runtime.Splitting
import Clox.Runtime.Stored
import Clox.Runtime.Files
import Clox.Runtime.Frozen
import Clox.Runtime.CachedHashes
import Clox.Runtime.Sequences
import Clox.Runtime.Timers
import Clox.Runtime.LoadPath
import Clox.Compiler.Descriptors
import Clox.Compiler.ForeachEmit
import Clox.Gc.YoungMark
import Clox.Gc.Hidden
import Clox.Regex.Nodes
import Clox.Regex.Parser
import Clox.Regex.Tree
import Clox.Regex.Spoilt
import Clox.Regex.Grammar
import Clox.Regex.Calls
import Clox.Regex.WellFormed
import Clox.Parser.Lookahead
