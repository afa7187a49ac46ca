import PackedMemory.Index.Sorted
import PackedMemory.Index.Tree
import PackedMemory.PackedArray.Change
import PackedMemory.PackedArray.Check
import PackedMemory.PackedArray.Range
import PackedMemory.PackedArray.Text
import PackedMemory.Proofs.Access
import PackedMemory.Proofs.Counters.Access
import PackedMemory.Proofs.Cursor
import PackedMemory.Proofs.Index.Access
import PackedMemory.Proofs.Index.Map
import PackedMemory.Proofs.Index.Sorted
import PackedMemory.Proofs.Index.Tree
import PackedMemory.Proofs.Insertion
import PackedMemory.Proofs.PackedArray.Access
import PackedMemory.Proofs.PackedArray.Capacity
import PackedMemory.Proofs.PackedArray.Check
import PackedMemory.Proofs.PackedArray.Checked
import PackedMemory.Proofs.PackedArray.Clearing
import PackedMemory.Proofs.PackedArray.Density
import PackedMemory.Proofs.PackedArray.Emptying
import PackedMemory.Proofs.PackedArray.Extension
import PackedMemory.Proofs.PackedArray.Growth
import PackedMemory.Proofs.PackedArray.Iteration
import PackedMemory.Proofs.PackedArray.Locality
import PackedMemory.Proofs.PackedArray.Lockstep
import PackedMemory.Proofs.PackedArray.Map
import PackedMemory.Proofs.PackedArray.Mending
import PackedMemory.Proofs.PackedArray.Prediction
import PackedMemory.Proofs.PackedArray.Range
import PackedMemory.Proofs.PackedArray.Reachable
import PackedMemory.Proofs.PackedArray.Refusal
import PackedMemory.Proofs.PackedArray.Spreading
import PackedMemory.Proofs.PackedArray.Withdrawal
import PackedMemory.Proofs.Storage.Access
import PackedMemory.Proofs.Storage.Filling
import PackedMemory.Proofs.Storage.History
import PackedMemory.Proofs.Storage.Insertion
import PackedMemory.Proofs.Storage.Row
import PackedMemory.Proofs.Thresholds
import PackedMemory.Shares.Lemmas
