import GcUtil.Isolate.Mapping
import GcUtil.Isolate.Pending
import GcUtil.Block.CacheCoherence
import GcUtil.Block.IndexLookup
import GcUtil.Block.UnmappedBytes
import GcUtil.Block.HeapLimit
import GcUtil.Block.Exhaustion
import GcUtil.Block.RegionCounting
import GcUtil.Finalize.FiniteMaps
import GcUtil.Cords.Observers
import GcUtil.Cords.LazyFiles
import GcUtil.DirtyBits.WriteBarrier
import GcUtil.Mark.Rescan
import GcUtil.Mark.Termination
import GcUtil.Sweep.MarkCounts
import GcUtil.Block.BlockWalk
import GcUtil.Typed.ExtDescriptors
import GcUtil.Block.BlackListing
import GcUtil.Malloc.Purging
import GcUtil.Malloc.SizeMap
import GcUtil.Roots.StaticRoots
import GcUtil.Finalize.ToggleRefs
import GcUtil.Malloc.NonGcBytes
import GcUtil.Finalize.Invocation
import GcUtil.Finalize.LinkClearing
import GcUtil.Finalize.QueueBytes
import GcUtil.Typed.Arrays
import GcUtil.Roots.Exclusions
import GcUtil.Roots.MergedRoots
import GcUtil.Block.KindDescriptors
import GcUtil.Mark.Selecting
import GcUtil.Mark.BaseLookup
import GcUtil.Mark.InvSize
import GcUtil.Sweep.FreshLists
