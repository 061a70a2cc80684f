import Renec.Collections.SortedMap
import Renec.Machine.Outcome
import Renec.Sdk.Types

/-!
# Shards of the gossip table

The positions of the values of a table by the first bits of their hash
(`gossip/src/crds_shards.rs`). Masks are words of 64 bits, natural numbers here.
-/

namespace Renec.Gossip

/-- `hash.checked_shr(bits)` on a `u64`. -/
def checkedShr (word bits : ℕ) : Option ℕ := if bits < 64 then some (word >>> bits) else none

/-- `hash.checked_shl(bits)` on a `u64`. -/
def checkedShl (word bits : ℕ) : Option ℕ :=
  if bits < 64 then some ((word <<< bits) % 2 ^ 64) else none

/-- `CrdsFilter::hash_as_u64`: the first eight bytes, little-endian. -/
def hashAsU64 (hash : Hash) : ℕ :=
  (List.range 8).foldl (fun word i ↦ word + (hash.bits.toNat >>> (8 * (31 - i))) % 256 * 256 ^ i) 0

structure CrdsShards where
  /-- The hashes of the values at each position, in the shard of their first bits. -/
  shards : List (SortedMap ℕ ℕ)
  shardBits : ℕ

namespace CrdsShards

def new (shardBits : ℕ) : CrdsShards := ⟨List.replicate (1 <<< shardBits) .empty, shardBits⟩

variable (s : CrdsShards)

def shardIndex (hash : ℕ) : ℕ := (checkedShr hash (64 - s.shardBits)).getD 0

/-- Change the shard of a hash. -/
def modifyShard (hash : ℕ) (f : SortedMap ℕ ℕ → SortedMap ℕ ℕ) : Option CrdsShards :=
  (s.shards[s.shardIndex hash]?).map fun shard ↦
    { s with shards := s.shards.set (s.shardIndex hash) (f shard) }

def insert (index : ℕ) (valueHash : Hash) : Option CrdsShards :=
  s.modifyShard (hashAsU64 valueHash) fun shard ↦ shard.insert index (hashAsU64 valueHash)

def remove (index : ℕ) (valueHash : Hash) : Option CrdsShards :=
  s.modifyShard (hashAsU64 valueHash) fun shard ↦ shard.filterKeys fun i ↦ i ≠ index

/-- The positions of all values the first `maskBits` bits of whose hash are those of `mask`. -/
def find (mask maskBits : ℕ) : Option (List ℕ) :=
  let ones := (checkedShr u64Max maskBits).getD 0
  let mask := mask ||| ones
  if s.shardBits < maskBits then
    (s.shards[s.shardIndex mask]?).map fun shard ↦
      shard.entries.filterMap fun (index, hash) ↦ if hash ||| ones = mask then some index else none
  else if s.shardBits = maskBits then
    (s.shards[s.shardIndex mask]?).map fun shard ↦ shard.entries.map Prod.fst
  else do
    let count := 1 <<< (s.shardBits - maskBits)
    let stop := s.shardIndex mask + 1
    let start ← checkedSub stop count
    if stop ≤ s.shards.length then
      return ((s.shards.take stop).drop start).flatMap fun shard ↦ shard.entries.map Prod.fst
    else none

end CrdsShards

end Renec.Gossip
