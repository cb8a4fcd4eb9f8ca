import Algors.Heap.Runs
import Algors.Heap.Machine
import Algors.Trie.Conservation
import Algors.Trie.Packed
import Algors.Trie.ChildMap
import Algors.Trie.RawVecRuns
import Algors.Trie.Compression
import Algors.Trie.Refinement
import Algors.Trie.PrefixRemoval
import Algors.Trie.Soundness
import Algors.Trie.Space
import Algors.Queue.Disposal
import Algors.Queue.MpmcLinear
import Algors.Queue.MpmcWord
import Algors.Waiter.AnyWaiter
import Algors.Waiter.Separate
import Algors.Waiter.Shared
import Algors.UnionFind.Frame
import Algors.UnionFind.Machine
import Algors.Trie.PlacedSpace
import Algors.Queue.SpscOrderings
import Algors.Queue.MpmcWeakDrop
