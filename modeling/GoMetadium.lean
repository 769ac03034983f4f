import GoMetadium.Lib.Except
import GoMetadium.Lib.Machine
import GoMetadium.Lib.Rlp
import GoMetadium.Lib.GoInt
import GoMetadium.Lib.AListSum
import GoMetadium.Lib.Heap
import GoMetadium.Rlp.Encbuf
import GoMetadium.Rlp.Stream
import GoMetadium.Rlp.RoundTrip
import GoMetadium.Rlp.Typed
import GoMetadium.Metadium.Rewards
import GoMetadium.Core.StateTransition
import GoMetadium.Core.ApplyFailure
import GoMetadium.Core.GasLimit
import GoMetadium.Core.Signing
import GoMetadium.Core.TxSortedMap
import GoMetadium.Core.TxList
import GoMetadium.Core.TxPriceNonce
import GoMetadium.Common.Sstack
import GoMetadium.Common.Prque
import GoMetadium.Common.Batch
import GoMetadium.Common.Hexutil
import GoMetadium.Common.Bitutil
import GoMetadium.Common.LruModel
import GoMetadium.Common.Lru
import GoMetadium.Metadium.SpinLock
import GoMetadium.Trie.Encoding
import GoMetadium.Trie.Node
import GoMetadium.Trie.Trie
import GoMetadium.Trie.Shape
import GoMetadium.Trie.Insert
import GoMetadium.Trie.Delete
import GoMetadium.Trie.Canonical
import GoMetadium.Trie.Hasher
import GoMetadium.Trie.Resolve
import GoMetadium.Trie.Calls
import GoMetadium.Trie.Decode
import GoMetadium.Trie.Proof
import GoMetadium.Trie.Database
import GoMetadium.Trie.Memory
import GoMetadium.State.StateDB
import GoMetadium.State.View
import GoMetadium.State.Revert
import GoMetadium.Vm.Evm
import GoMetadium.Vm.Atomic
import GoMetadium.Vm.Analysis
import GoMetadium.Vm.MemoryGas
import GoMetadium.Vm.SstoreGas
import GoMetadium.Vm.ModExp
import GoMetadium.Metadium.Admin
import GoMetadium.Metadium.GovData
import GoMetadium.Metadium.Miner
import GoMetadium.Core.ForkId
import GoMetadium.Rlp.Raw
import GoMetadium.Rlp.Output
import GoMetadium.Lib.RoundRobin
import GoMetadium.Lib.LinkedList
import GoMetadium.Miner.TxOrderer
import GoMetadium.Lib.Search
import GoMetadium.P2p.Netutil
import GoMetadium.P2p.Enode
import GoMetadium.P2p.Table
import GoMetadium.P2p.Closest
import GoMetadium.P2p.Lookup
import GoMetadium.P2p.Dial
import GoMetadium.P2p.Server
