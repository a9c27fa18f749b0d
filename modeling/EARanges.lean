import EARanges.Support.Exec
import EARanges.Support.Effects
import EARanges.Support.RangeModel
import EARanges.Support.Walks
import EARanges.Support.Visits
import EARanges.Support.Rearrangement
import EARanges.Algorithm.Permutation
import EARanges.Iterator.DiffmaxT
import EARanges.Iterator.Advance
import EARanges.View.Cycle
import EARanges.Support.Blocks
import EARanges.View.ChunkInput
import EARanges.Support.Cursor
import EARanges.View.SetUnion
import EARanges.View.ExclusiveScan
import EARanges.View.Conversion
import EARanges.Support.Lockstep
import EARanges.View.ZipWith
import EARanges.View.Transform2
import EARanges.Support.StableOrder
import EARanges.Support.InPlace
import EARanges.Algorithm.InsertionSort
import EARanges.Support.CyclicShift
import EARanges.Algorithm.Rotate
import EARanges.Algorithm.PartitionPoint
import EARanges.Support.Store
import EARanges.Algorithm.Merge
import EARanges.Algorithm.InplaceMerge
import EARanges.Utility.Memory
import EARanges.Algorithm.StableSort
import EARanges.Support.HeapOrder
import EARanges.Algorithm.Heap
import EARanges.Algorithm.Sort
import EARanges.Support.Numbered
import EARanges.Iterator.RangeTraits
import EARanges.View.Sliding
import EARanges.View.DropLast
import EARanges.Iterator.DifferenceT
import EARanges.Support.Strides
import EARanges.View.Stride
import EARanges.View.Chunk
import EARanges.Support.Nested
import EARanges.View.Concat
import EARanges.Support.Tuples
import EARanges.View.CartesianProduct
import EARanges.View.Join
import EARanges.View.JoinWith
import EARanges.Support.GreedySplit
import EARanges.Algorithm.Mismatch
import EARanges.View.Split
import EARanges.Support.MergePolicy
import EARanges.Algorithm.SetAlgorithm
import EARanges.View.SetAlgorithm
import EARanges.Algorithm.SetClasses
import EARanges.Support.SortedMerge
import EARanges.Support.Words
import EARanges.Random.UniformInt
import EARanges.Algorithm.Shuffle
import EARanges.Algorithm.Sample
import EARanges.View.Sample
import EARanges.Detail.Variant
import EARanges.View.Subrange
import EARanges.Support.Reversal
import EARanges.Random.SeedSeq
import EARanges.Support.Selection
import EARanges.Algorithm.NthElementRuns
import EARanges.Action.Slice
import EARanges.Action.Stride
import EARanges.Action.Erase
import EARanges.Action.Closure
import EARanges.Action.Views
import EARanges.Support.SortByKeys
import EARanges.Algorithm.RemoveIf
import EARanges.Algorithm.StablePartition
import EARanges.Algorithm.HeapLaw
import EARanges.Algorithm.PartialSort
import EARanges.Support.Lexicographic
import EARanges.Algorithm.NextPermutation
import EARanges.Support.Occurrence
import EARanges.Algorithm.Search
import EARanges.Algorithm.FindEnd
import EARanges.Support.WhileTrue
import EARanges.Algorithm.SearchN
import EARanges.Algorithm.EqualRange
import EARanges.Support.Champion
import EARanges.Algorithm.MinMax
import EARanges.Algorithm.Extremum
import EARanges.Support.Neighbours
import EARanges.Algorithm.AdjacentRemoveIf
import EARanges.View.AdjacentRemoveIf
import EARanges.Support.TwosComplement
import EARanges.Iterator.IntType
import EARanges.Iterator.DiffmaxBits
import EARanges.Iterator.DifferenceType
import EARanges.View.ClosedIota
import EARanges.View.Intersperse
import EARanges.Algorithm.FindIf
import EARanges.Algorithm.Partition
import EARanges.Algorithm.UnstableRemoveIf
import EARanges.Support.KeptPositions
import EARanges.View.RemoveIf
import EARanges.View.Generate
import EARanges.View.Getlines
import EARanges.View.AdjacentFilter
import EARanges.View.ChunkBy
import EARanges.View.SplitWhen
import EARanges.Algorithm.UniqueCopy
import EARanges.Algorithm.SortNWithBuffer
import EARanges.Support.Responses
import EARanges.Range.ToContainerIterator
import EARanges.View.LinearDistribute
import EARanges.Support.RunningSum
import EARanges.Numeric.PartialSum
import EARanges.View.PartialSum
import EARanges.Utility.HolderLaw
import EARanges.Adaptor.Operations
import EARanges.Adaptor.Interface
import EARanges.Adaptor.AdjacentFilter
import EARanges.Adaptor.AnyView
import EARanges.Adaptor.Client
import EARanges.Adaptor.Cache1
import EARanges.Adaptor.Common
import EARanges.Adaptor.Transform
import EARanges.Adaptor.FindIfNot
import EARanges.Adaptor.RemoveIf
import EARanges.Adaptor.Zip
import EARanges.Adaptor.Source
import EARanges.Adaptor.Suffix
import EARanges.Adaptor.Window
import EARanges.Adaptor.Counted
import EARanges.Adaptor.TakeWhile
import EARanges.Adaptor.Reverse
import EARanges.Adaptor.Pipeline
import EARanges.Adaptor.Programs
import EARanges.Adaptor.Folds
import EARanges.Adaptor.Searches
import EARanges.Support.Pairing
import EARanges.Adaptor.Comparisons
import EARanges.Support.Cells
import EARanges.Eastl.Vector
import EARanges.Eastl.VectorRuns
