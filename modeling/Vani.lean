import Vani.Program.Ast
import Vani.Program.ConstFold
import Vani.Program.Ir
import Vani.Program.Facts
import Vani.Program.Check
import Vani.Library.CInteger
import Vani.Model.Value
import Vani.Model.Eval
import Vani.Model.Machine
import Vani.Analysis.Writes
import Vani.Analysis.Names
import Vani.Analysis.Agreement
import Vani.Analysis.Substitution
import Vani.Analysis.Holds
import Vani.Analysis.NewFacts
import Vani.Analysis.RecordedFacts
import Vani.Analysis.Careful
import Vani.Analysis.FactSoundness
import Vani.Model.Visits
import Vani.Analysis.Inversion
import Vani.Analysis.Constants
import Vani.Analysis.ConstantSoundness
import Vani.Backend.EmitInt
import Vani.Analysis.FixedWidth
import Vani.Library.Outcome
import Vani.Library.OpenAddressing
import Vani.Backend.Probing
import Vani.Backend.HashTables
import Vani.Analysis.HashTables
import Vani.Backend.Vec
import Vani.Analysis.VecRefines
import Vani.Library.AvlTree
import Vani.Backend.Bst
import Vani.Analysis.BstRefines
import Vani.Library.RingBuffer
import Vani.Backend.Channel
import Vani.Analysis.ChannelRing
import Vani.Analysis.ChannelFifo
import Vani.Program.Ssa
import Vani.Library.Worklist
import Vani.Program.SsaPass
import Vani.Analysis.DeadCode
import Vani.Analysis.WellFormed
import Vani.Model.SsaMachine
import Vani.Analysis.FoldConstants
import Vani.Analysis.FoldedRuns
import Vani.Backend.Deque
import Vani.Analysis.DequeRefines
import Vani.Library.SortedList
import Vani.Backend.BTree
import Vani.Analysis.SortedArrays
import Vani.Analysis.BTreeRefines
import Vani.Library.HeapOrder
import Vani.Backend.BinaryHeap
import Vani.Analysis.BinaryHeapRefines
import Vani.Backend.BloomFilter
import Vani.Analysis.BloomFilterComplete
import Vani.Library.DisjointSets
import Vani.Backend.UnionFind
import Vani.Analysis.UnionFindPartition
import Vani.Library.Futex
import Vani.Library.Transitions
import Vani.Backend.Mutex
import Vani.Analysis.MutexSafety
import Vani.Backend.Condvar
import Vani.Analysis.CondvarNotifies
import Vani.Library.CountingSort
import Vani.Backend.Graph
import Vani.Analysis.GraphCoherent
import Vani.Library.PointerJumping
import Vani.Program.Modules
import Vani.Analysis.ReExportChains
import Vani.Program.TypeDecls
import Vani.Analysis.TypeContainment
import Vani.Analysis.CopyTypes
import Vani.Program.LockParams
import Vani.Analysis.LockPropagation
import Vani.Program.TaskAffine
import Vani.Model.TaskPaths
import Vani.Analysis.TaskAffinity
import Vani.Program.BranchDrops
import Vani.Model.BranchPaths
import Vani.Analysis.BranchOwnership
import Vani.Program.TryDesugar
import Vani.Model.EarlyReturn
import Vani.Analysis.FreeNames
import Vani.Analysis.SameRuns
import Vani.Analysis.GuardRewriting
import Vani.Analysis.TryDesugaring
import Vani.Backend.Sorting
import Vani.Library.Rearrangement
import Vani.Analysis.SortCorrect
import Vani.Backend.GraphAlgorithms
import Vani.Analysis.GraphBuilt
import Vani.Analysis.GraphSearch
import Vani.Library.TopologicalOrder
import Vani.Analysis.TopologicalSort
import Vani.Library.ShortestPaths
import Vani.Analysis.ShortestDistances
import Vani.Analysis.AstarDistances
import Vani.Program.ElideBounds
import Vani.Analysis.ElidedBounds
import Vani.Library.SpanningForest
import Vani.Analysis.KruskalTree
import Vani.Analysis.SpanningTrees
import Vani.Analysis.RemovedBlocks
import Vani.Analysis.OrphanRule
import Vani.Program.StructuralProver
import Vani.Analysis.ProverSound
import Vani.Program.CheckConst
import Vani.Analysis.FoldedNodes
import Vani.Analysis.FoldingAgrees
import Vani.Library.Spelling
import Vani.Program.SmtQuery
import Vani.Analysis.SmtSymbols
import Vani.Backend.EmitNames
import Vani.Analysis.CNames
import Vani.Program.TypeAliases
import Vani.Analysis.TypeWalks
import Vani.Analysis.AliasExpansion
import Vani.Analysis.TypeNames
import Vani.Program.Generics
import Vani.Analysis.CallSites
import Vani.Analysis.TypeParams
import Vani.Analysis.Monomorphic
import Vani.Backend.VecQueries
import Vani.Analysis.VecHeapOrder
import Vani.Analysis.BinarySearch
import Vani.Analysis.FilteredVecs
import Vani.Library.CText
import Vani.Library.CLiteral
import Vani.Backend.EmitText
import Vani.Analysis.CStrings
import Vani.Backend.EmitAssign
import Vani.Analysis.OverwriteOrder
import Vani.Library.Rounding
import Vani.Library.Divisors
import Vani.Backend.Numeric
import Vani.Analysis.IntegerRoots
import Vani.Analysis.Primality
import Vani.Source.Path
import Vani.Source.Includes
import Vani.Analysis.FileMaps
import Vani.Library.PostOrder
import Vani.Analysis.IncludeOrder
import Vani.Source.Manifest
import Vani.Analysis.ManifestLoading
import Vani.Library.Utf8
import Vani.Syntax.Token
import Vani.Syntax.Literals
import Vani.Syntax.Lexer
import Vani.Syntax.Comments
import Vani.Analysis.Lexing
import Vani.Analysis.Pieces
import Vani.Analysis.CommentRegions
import Vani.Analysis.TokenSpans
import Vani.Syntax.Lsp
import Vani.Analysis.EditorPositions
import Vani.Backend.Arithmetic
import Vani.Analysis.RoundedDivision
import Vani.Analysis.Logarithms
import Vani.Analysis.Powers
import Vani.Library.ExtendedEuclid
import Vani.Analysis.CommonDivisors
import Vani.Analysis.Counting
import Vani.Analysis.DivisorFunctions
import Vani.Library.XorShift
import Vani.Analysis.RandomRange
import Vani.Library.Occurrences
import Vani.Library.CString
import Vani.Backend.Strings
import Vani.Analysis.SplitJoin
import Vani.Analysis.Replacement
import Vani.Model.Assignments
import Vani.Analysis.CarriedBindings
import Vani.Backend.Trie
import Vani.Library.PrefixTree
import Vani.Analysis.TrieRefines
import Vani.Library.LinkedList
import Vani.Backend.SkipList
import Vani.Analysis.SkipListRefines
import Vani.Library.RecursiveDescent
import Vani.Syntax.Parser
import Vani.Syntax.Expressions
import Vani.Syntax.Declarations
import Vani.Analysis.ParserContract
import Vani.Analysis.ParserReturns
import Vani.Analysis.ProgramsReturn
import Vani.Analysis.Precedence
