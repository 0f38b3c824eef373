import KeyedStore.Text.Description
import KeyedStore.Proofs.OrderedMap.Traversal
import KeyedStore.Proofs.HashedMap.Band
import KeyedStore.Proofs.HashedMap.Leeway
import KeyedStore.Proofs.Confinement
import KeyedStore.Proofs.Renewal
import KeyedStore.Proofs.OrderedMap.Depth
import KeyedStore.Proofs.OrderedMap.Inspection
import KeyedStore.Proofs.OrderedMap.Iteration
import KeyedStore.Proofs.OrderedMap.Sequence
import KeyedStore.Proofs.HashedMap.Relinking
import KeyedStore.Proofs.HashedMap.Counters
import KeyedStore.Proofs.Counters
import KeyedStore.Proofs.Consumption
import KeyedStore.Proofs.Accumulator
import KeyedStore.Proofs.HashedMap.ChainOrder
import KeyedStore.Proofs.Additions
import KeyedStore.Proofs.Provenance
import KeyedStore.Proofs.Shape.Mending
import KeyedStore.Proofs.OrderedMap.Seek
import KeyedStore.Proofs.LinkedStore
