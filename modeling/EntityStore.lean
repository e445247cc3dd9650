import EntityStore.Proofs.RoundTrip
import EntityStore.Proofs.Schema.Pointers
import EntityStore.Proofs.Query.Arity
import EntityStore.Proofs.Query.Obscure
import EntityStore.Proofs.Query.Reading
import EntityStore.Proofs.Query.Reorder
import EntityStore.Proofs.Query.Sharing
import EntityStore.Proofs.Query.Sorting
import EntityStore.Proofs.Query.Stable
import EntityStore.Proofs.Store.Isolation
import EntityStore.Proofs.Store.Commute
import EntityStore.Proofs.Store.Eager
import EntityStore.Proofs.Store.Erasure
import EntityStore.Proofs.Store.Inverse
import EntityStore.Proofs.Store.Publication
import EntityStore.Proofs.Store.Snapshot
import EntityStore.Proofs.Store.Structural
import EntityStore.Proofs.Store.Creation
import EntityStore.Proofs.Query.SortKeys
import EntityStore.Proofs.Query.Membership
import EntityStore.Proofs.Query.Operators
import EntityStore.Proofs.Query.Names
import EntityStore.Proofs.Query.Disclosure
import EntityStore.Proofs.Store.Counters
import EntityStore.Proofs.Query.Comparison
import EntityStore.Proofs.Row.Coalesce
import EntityStore.Proofs.Log.Line
import EntityStore.Proofs.Query.Descent
