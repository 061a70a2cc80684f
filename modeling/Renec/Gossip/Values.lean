import Renec.Perf.SigVerify

/-!
# Values of the gossip network

The values that nodes replicate, and the labels under which there is one of each
(`gossip/src/crds_value.rs`). The data has eleven kinds; what no function here reads of a kind is
its serialized `rest`. The hash of a serialized value is a parameter of what follows.
-/

namespace Renec.Gossip

structure ContactInfo where
  id : Pubkey
  wallclock : ℕ
  shredVersion : ℕ
  rest : List UInt8
  deriving DecidableEq

structure NodeInstance where
  /-- The field `from`. -/
  fromKey : Pubkey
  wallclock : ℕ
  /-- When the instance was created. -/
  timestamp : ℕ
  /-- Randomly generated value at node instantiation. -/
  token : ℕ
  deriving DecidableEq

/-- The records of the other kinds, which have an owner and a wallclock. -/
structure Record where
  fromKey : Pubkey
  wallclock : ℕ
  rest : List UInt8
  deriving DecidableEq

inductive CrdsData where
  | contactInfo (info : ContactInfo)
  | vote (index : ℕ) (vote : Record)
  | lowestSlot (index : ℕ) (slot : Record)
  | snapshotHashes (hashes : Record)
  | accountsHashes (hashes : Record)
  | epochSlots (index : ℕ) (slots : Record)
  | legacyVersion (version : Record)
  | version (version : Record)
  | nodeInstance (node : NodeInstance)
  | duplicateShred (index : ℕ) (shred : Record)
  | incrementalSnapshotHashes (hashes : Record)
  deriving DecidableEq

structure CrdsValue where
  signature : Signature
  data : CrdsData
  deriving DecidableEq

inductive CrdsValueLabel where
  | contactInfo (key : Pubkey)
  | vote (index : ℕ) (key : Pubkey)
  | lowestSlot (key : Pubkey)
  | snapshotHashes (key : Pubkey)
  | epochSlots (index : ℕ) (key : Pubkey)
  | accountsHashes (key : Pubkey)
  | legacyVersion (key : Pubkey)
  | version (key : Pubkey)
  | nodeInstance (key : Pubkey)
  | duplicateShred (index : ℕ) (key : Pubkey)
  | incrementalSnapshotHashes (key : Pubkey)
  deriving DecidableEq

def CrdsValueLabel.pubkey : CrdsValueLabel → Pubkey
  | contactInfo key | vote _ key | lowestSlot key | snapshotHashes key | epochSlots _ key
  | accountsHashes key | legacyVersion key | version key | nodeInstance key | duplicateShred _ key
  | incrementalSnapshotHashes key => key

namespace CrdsData

def isContactInfo : CrdsData → Bool
  | contactInfo _ => true
  | _ => false

def isVote : CrdsData → Bool
  | vote _ _ => true
  | _ => false

def isEpochSlots : CrdsData → Bool
  | epochSlots _ _ => true
  | _ => false

end CrdsData

namespace CrdsValue

variable (value : CrdsValue)

def wallclock : ℕ :=
  match value.data with
  | .contactInfo info => info.wallclock
  | .vote _ vote => vote.wallclock
  | .lowestSlot _ slot => slot.wallclock
  | .snapshotHashes hashes => hashes.wallclock
  | .accountsHashes hashes => hashes.wallclock
  | .epochSlots _ slots => slots.wallclock
  | .legacyVersion version => version.wallclock
  | .version version => version.wallclock
  | .nodeInstance node => node.wallclock
  | .duplicateShred _ shred => shred.wallclock
  | .incrementalSnapshotHashes hashes => hashes.wallclock

def pubkey : Pubkey :=
  match value.data with
  | .contactInfo info => info.id
  | .vote _ vote => vote.fromKey
  | .lowestSlot _ slot => slot.fromKey
  | .snapshotHashes hashes => hashes.fromKey
  | .accountsHashes hashes => hashes.fromKey
  | .epochSlots _ slots => slots.fromKey
  | .legacyVersion version => version.fromKey
  | .version version => version.fromKey
  | .nodeInstance node => node.fromKey
  | .duplicateShred _ shred => shred.fromKey
  | .incrementalSnapshotHashes hashes => hashes.fromKey

def label : CrdsValueLabel :=
  match value.data with
  | .contactInfo _ => .contactInfo value.pubkey
  | .vote index _ => .vote index value.pubkey
  | .lowestSlot _ _ => .lowestSlot value.pubkey
  | .snapshotHashes _ => .snapshotHashes value.pubkey
  | .accountsHashes _ => .accountsHashes value.pubkey
  | .epochSlots index _ => .epochSlots index value.pubkey
  | .legacyVersion _ => .legacyVersion value.pubkey
  | .version _ => .version value.pubkey
  | .nodeInstance node => .nodeInstance node.fromKey
  | .duplicateShred index shred => .duplicateShred index shred.fromKey
  | .incrementalSnapshotHashes _ => .incrementalSnapshotHashes value.pubkey

/-! ### What a label says -/

variable {a b : CrdsValue}

lemma pubkey_label (a : CrdsValue) : a.label.pubkey = a.pubkey := by
  obtain ⟨-, data⟩ := a
  cases data <;> rfl

lemma pubkey_eq_of_label (h : a.label = b.label) : a.pubkey = b.pubkey := by
  rw [← pubkey_label, h, pubkey_label]

lemma kind_eq_of_label (h : a.label = b.label) :
    a.data.isContactInfo = b.data.isContactInfo ∧ a.data.isVote = b.data.isVote ∧
      a.data.isEpochSlots = b.data.isEpochSlots := by
  obtain ⟨s, a⟩ := a
  obtain ⟨t, b⟩ := b
  cases a <;> cases b <;> first | exact ⟨rfl, rfl, rfl⟩ | cases h

end CrdsValue

end Renec.Gossip
