import Renec.Collections.Chunks
import Renec.Collections.SortedMap
import Renec.Ledger.Shred

/-!
# Proofs of duplicate shreds

Two different shreds with the same slot, index and type show that a leader made two versions of a
block. The pair is written to bytes, cut into chunks that fit into a packet and sent through gossip
(`gossip/src/duplicate_shred.rs`); a receiver puts the chunks of a proof together again, whatever
their order and however often each arrived, and checks the shreds it finds.

The receiver compares every chunk with the first one, whose own index may lie beyond the number of
chunks it announces; then one is missing, and taking it panics (`into_shreds_panics`).
-/

namespace Renec.Gossip

open List SortedMap Outcome Bincode Shred

/-- `DUPLICATE_SHRED_HEADER_SIZE`. -/
def duplicateShredHeaderSize : ℕ := 63

/-- A chunk of a proof. -/
structure DuplicateShred where
  /-- The field `from`. -/
  fromKey : Pubkey
  wallclock : ℕ
  slot : Slot
  shredIndex : ℕ
  shredType : ShredType
  numChunks : ℕ
  chunkIndex : ℕ
  chunk : List UInt8
  deriving DecidableEq

namespace DuplicateShred

inductive Error where
  | dataChunkMismatch
  | invalidChunkIndex
  | invalidDuplicateShreds
  | invalidDuplicateSlotProof
  | invalidSignature
  | invalidSizeLimit
  | invalidShred (error : ShredError)
  | numChunksMismatch
  | missingDataChunk
  | serializationError
  | shredIndexMismatch
  | shredTypeMismatch
  | slotMismatch
  | tryFromIntError
  | unknownSlotLeader
  deriving DecidableEq

/-- The payloads of the two shreds, `blockstore_meta::DuplicateSlotProof`. -/
structure DuplicateSlotProof where
  shred1 : List UInt8
  shred2 : List UInt8
  deriving DecidableEq

variable {proof : DuplicateSlotProof}

namespace DuplicateSlotProof

/-- `bincode::serialize`. -/
def serialize (proof : DuplicateSlotProof) : List UInt8 :=
  leBytes 8 proof.shred1.length ++ (proof.shred1 ++ (leBytes 8 proof.shred2.length ++ proof.shred2))

/-- `bincode::deserialize`, which allows trailing bytes. -/
def deserialize (bytes : List UInt8) : Option DuplicateSlotProof := do
  let (len, bytes) ← uint 8 bytes
  let (shred1, bytes) ← take len bytes
  let (len, bytes) ← uint 8 bytes
  let (shred2, _) ← take len bytes
  return ⟨shred1, shred2⟩

lemma deserialize_serialize (h₁ : proof.shred1.length < 2 ^ 64)
    (h₂ : proof.shred2.length < 2 ^ 64) : deserialize proof.serialize = some proof := by
  rw [deserialize, serialize, uint_append (by omega)]
  simp only [some_bind]
  rw [take_append rfl]
  simp only [some_bind]
  rw [uint_append (by omega)]
  simp only [some_bind]
  have htake := @take_append proof.shred2 [] _ rfl
  rw [append_nil] at htake
  rw [htake]
  rfl

end DuplicateSlotProof

section

variable (verifySignature : List UInt8 → Pubkey → List UInt8 → Bool)

/-- The shreds are for one triple of slot, index and type, and the leader signed both. -/
def checkShreds (leaderSchedule : Option (Slot → Option Pubkey)) (shred1 shred2 : Shred) :
    Except Error Unit :=
  if shred1.slot ≠ shred2.slot then .error .slotMismatch
  else if shred1.index ≠ shred2.index then .error .shredIndexMismatch
  else if shred1.shredType ≠ shred2.shredType then .error .shredTypeMismatch
  else if shred1.payload = shred2.payload then .error .invalidDuplicateShreds
  else
    match leaderSchedule with
    | none => .ok ()
    | some leaderSchedule =>
      match leaderSchedule shred1.slot with
      | none => .error .unknownSlotLeader
      | some slotLeader =>
        if !shred1.verify verifySignature slotLeader ||
            !shred2.verify verifySignature slotLeader then
          .error .invalidSignature
        else .ok ()

/-- `Shred::new_from_serialized_shred`, with its error as one of these. -/
def parseShred (payload : List UInt8) : Except Error Shred :=
  (newFromSerializedShred payload).mapError .invalidShred

variable (shred : Shred) (selfPubkey : Pubkey)

/-- The common end of `from_duplicate_slot_proof` and `from_shred`: the bytes of the proof in chunks
of limited size. -/
def splitProof (proof : DuplicateSlotProof) (wallclock maxSize : ℕ) :
    Except Error (List DuplicateShred) :=
  if duplicateShredHeaderSize < maxSize then
    let chunks := proof.serialize.chunksOf (maxSize - duplicateShredHeaderSize)
    if 2 ^ 8 ≤ chunks.length then .error .tryFromIntError
    else
      .ok (chunks.zipIdx.map fun (chunk, i) ↦
        ⟨selfPubkey, wallclock, shred.slot, shred.index, shred.shredType, chunks.length,
          i % 2 ^ 8, chunk⟩)
  else .error .invalidSizeLimit

def fromShred (otherPayload : List UInt8) (leaderSchedule : Option (Slot → Option Pubkey))
    (wallclock maxSize : ℕ) : Except Error (List DuplicateShred) := do
  if shred.payload = otherPayload then throw .invalidDuplicateShreds
  let otherShred ← parseShred otherPayload
  checkShreds verifySignature leaderSchedule shred otherShred
  splitProof shred selfPubkey ⟨shred.payload, otherPayload⟩ wallclock maxSize

/-- A chunk matches the slot, index, type and number of chunks, and has an index below it. -/
def checkChunk (slot : Slot) (shredIndex : ℕ) (shredType : ShredType) (numChunks : ℕ)
    (dup : DuplicateShred) : Except Error Unit :=
  if dup.slot ≠ slot then .error .slotMismatch
  else if dup.shredIndex ≠ shredIndex then .error .shredIndexMismatch
  else if dup.shredType ≠ shredType then .error .shredTypeMismatch
  else if dup.numChunks ≠ numChunks then .error .numChunksMismatch
  else if numChunks ≤ dup.chunkIndex then .error .invalidChunkIndex
  else .ok ()

/-- The body of the loop over the chunks behind the first one. -/
def addChunk (first : DuplicateShred) (data : SortedMap ℕ (List UInt8)) (dup : DuplicateShred) :
    Except Error (SortedMap ℕ (List UInt8)) := do
  checkChunk first.slot first.shredIndex first.shredType first.numChunks dup
  match data.get? dup.chunkIndex with
  | none => .ok (data.insert dup.chunkIndex dup.chunk)
  | some chunk => if chunk ≠ dup.chunk then .error .dataChunkMismatch else .ok data

/-- The end of `into_shreds`: the shreds of a proof, if they are what the chunks promise. -/
def shredsOfProof (first : DuplicateShred) (slotLeader : Pubkey) (data : List UInt8) :
    Except Error (Shred × Shred) :=
  match DuplicateSlotProof.deserialize data with
  | none => .error .serializationError
  | some proof =>
    if proof.shred1 = proof.shred2 then .error .invalidDuplicateSlotProof
    else do
      let shred1 ← parseShred proof.shred1
      let shred2 ← parseShred proof.shred2
      if shred1.slot ≠ first.slot ∨ shred2.slot ≠ first.slot then .error .slotMismatch
      else if shred1.index ≠ first.shredIndex ∨ shred2.index ≠ first.shredIndex then
        .error .shredIndexMismatch
      else if shred1.shredType ≠ first.shredType ∨ shred2.shredType ≠ first.shredType then
        .error .shredTypeMismatch
      else if shred1.payload = shred2.payload then .error .invalidDuplicateShreds
      else if !shred1.verify verifySignature slotLeader ||
          !shred2.verify verifySignature slotLeader then
        .error .invalidSignature
      else .ok (shred1, shred2)

/-- Put the chunks of a proof together. -/
def intoShreds (chunks : List DuplicateShred) (leader : Slot → Option Pubkey) :
    Outcome Error (Shred × Shred) :=
  match chunks with
  | [] => .err .invalidDuplicateShreds
  | first :: chunks => do
    let slotLeader ← Outcome.okOr .unknownSlotLeader (leader first.slot)
    let data ← Outcome.ofExcept
      (chunks.foldlM (addChunk first) (SortedMap.singleton first.chunkIndex first.chunk))
    Outcome.failIf (decide (data.entries.length ≠ first.numChunks)) .missingDataChunk
    -- `data.remove(&k).unwrap()`, for every index once
    let parts ← Outcome.ofOption ((range first.numChunks).mapM data.get?)
    Outcome.ofExcept (shredsOfProof verifySignature first slotLeader parts.flatten)

end

/-! ### Chunks of a sender -/

/-- A chunk that belongs to the parts of a proof about a shred. -/
structure IsPart (shred : Shred) (parts : List (List UInt8)) (dup : DuplicateShred) : Prop where
  slot : dup.slot = shred.slot
  shredIndex : dup.shredIndex = shred.index
  shredType : dup.shredType = shred.shredType
  numChunks : dup.numChunks = parts.length
  chunk : parts[dup.chunkIndex]? = some dup.chunk

variable {verifySignature : List UInt8 → Pubkey → List UInt8 → Bool} {shred : Shred}
  {parts : List (List UInt8)} {first : DuplicateShred} {data : SortedMap ℕ (List UInt8)}
  {chunks : List DuplicateShred} {wallclock maxSize : ℕ}
  {leaderSchedule : Option (Slot → Option Pubkey)} {shred1 shred2 : Shred} {slotLeader : Pubkey}
  {leader : Slot → Option Pubkey} {received : List DuplicateShred} {selfPubkey : Pubkey}

lemma splitProof_spec (h : splitProof shred selfPubkey proof wallclock maxSize = .ok chunks) :
    ∃ parts : List (List UInt8), parts.flatten = proof.serialize ∧
      (∀ dup ∈ chunks, IsPart shred parts dup) ∧
      ∀ i < parts.length, ∃ dup ∈ chunks, dup.chunkIndex = i := by
  rw [splitProof] at h
  split_ifs at h with hsize
  simp only at h
  split_ifs at h with hcount
  cases h
  generalize hparts : proof.serialize.chunksOf (maxSize - duplicateShredHeaderSize) = parts
  rw [hparts] at hcount
  refine ⟨parts, ?_, fun dup hdup ↦ ?_, fun i hi ↦ ?_⟩
  · rw [← hparts, flatten_chunksOf (Nat.sub_pos_of_lt hsize)]
  · obtain ⟨⟨chunk, i⟩, hmem, rfl⟩ := mem_map.mp hdup
    have hchunk := mem_zipIdx_iff_getElem?.mp hmem
    have hi : i < 2 ^ 8 := by
      obtain ⟨hlt, -⟩ := List.getElem?_eq_some_iff.mp hchunk
      omega
    refine ⟨rfl, rfl, rfl, rfl, ?_⟩
    simp only [Nat.mod_eq_of_lt hi]
    exact hchunk
  have hmem : (parts[i], i) ∈ parts.zipIdx := mem_zipIdx_iff_getElem?.mpr (getElem?_eq_getElem hi)
  exact ⟨_, mem_map.mpr ⟨_, hmem, rfl⟩, Nat.mod_eq_of_lt (by omega)⟩

variable {dup : DuplicateShred} {u : Unit}

/-- A chunk that can follow the first one: it is about the same shreds, and has its place among the
chunks. -/
def Follows (first dup : DuplicateShred) : Prop :=
  dup.slot = first.slot ∧ dup.shredIndex = first.shredIndex ∧ dup.shredType = first.shredType ∧
    dup.numChunks = first.numChunks ∧ dup.chunkIndex < first.numChunks

/-- Chunks with the same index have the same bytes. -/
def Agree (chunks : List DuplicateShred) : Prop :=
  ∀ dup ∈ chunks, ∀ dup' ∈ chunks, dup.chunkIndex = dup'.chunkIndex → dup.chunk = dup'.chunk

/-- The map has the bytes of the chunks that were read, under their indexes. -/
def Holds (data : SortedMap ℕ (List UInt8)) (read : List DuplicateShred) : Prop :=
  ∀ k c, data.get? k = some c ↔ ∃ dup ∈ read, dup.chunkIndex = k ∧ dup.chunk = c

variable {read : List DuplicateShred}

lemma Agree.of_append (h : Agree (read ++ chunks)) : Agree read := fun a ha b hb ↦
  h a (mem_append_left _ ha) b (mem_append_left _ hb)

lemma Holds.agree (h : Holds data read) : Agree read := fun a ha b hb hk ↦
  Option.some.inj (((h _ _).mpr ⟨a, ha, rfl, rfl⟩).symm.trans ((h _ _).mpr ⟨b, hb, hk.symm, rfl⟩))

lemma holds_singleton (first : DuplicateShred) :
    Holds (SortedMap.singleton first.chunkIndex first.chunk) [first] := fun k c ↦ by
  rw [get?_eq_some, SortedMap.mem_singleton]
  simp [eq_comm]

lemma Holds.mem_indexes (h : Holds data read) (k : ℕ) :
    k ∈ (read.map chunkIndex).toFinset ↔ ∃ c, data.get? k = some c := by
  simp only [h k, mem_toFinset, mem_map]
  exact ⟨fun ⟨dup, hdup, hk⟩ ↦ ⟨_, dup, hdup, hk, rfl⟩, fun ⟨_, dup, hdup, hk, _⟩ ↦ ⟨dup, hdup, hk⟩⟩

lemma checkChunk_eq_ok :
    checkChunk first.slot first.shredIndex first.shredType first.numChunks dup = .ok u ↔
      Follows first dup := by
  rw [checkChunk, Follows]
  split_ifs <;> grind

/-- A chunk is taken in if it can follow the first one and agrees with what was read. -/
theorem addChunk_cases (h : Holds data read) :
    (∃ data', addChunk first data dup = .ok data' ∧ Follows first dup ∧
        Holds data' (read ++ [dup])) ∨
      ∃ e, addChunk first data dup = .error e ∧ (Follows first dup → ¬Agree (read ++ [dup])) := by
  rw [addChunk]
  cases hcheck : checkChunk first.slot first.shredIndex first.shredType first.numChunks dup with
  | error e =>
    refine .inr ⟨e, rfl, fun hfollows ↦ ?_⟩
    cases hcheck.symm.trans ((@checkChunk_eq_ok _ _ ()).mpr hfollows)
  | ok u =>
    have hfollows := checkChunk_eq_ok.mp hcheck
    cases hget : data.get? dup.chunkIndex with
    | none =>
      refine .inl ⟨_, rfl, hfollows, fun k c ↦ ?_⟩
      rw [get?_insert]
      split_ifs with hk
      · have hnew : ∀ dup' ∈ read, dup'.chunkIndex ≠ k := fun dup' hmem heq ↦ by
          rw [← hk, (h k _).mpr ⟨dup', hmem, heq, rfl⟩] at hget
          cases hget
        simp only [mem_append, mem_singleton, or_and_right, exists_or, exists_eq_left]
        grind
      simp only [h k c, mem_append, List.mem_singleton, or_and_right, exists_or, exists_eq_left]
      grind
    | some chunk =>
      obtain ⟨dup', hmem, hkey, rfl⟩ := (h _ _).mp hget
      by_cases heq : dup'.chunk = dup.chunk
      · refine .inl ⟨data, if_neg (not_not.mpr heq), hfollows, fun k c ↦ ?_⟩
        rw [h k c]
        grind
      refine .inr ⟨_, if_pos heq, fun _ hagree ↦ heq ?_⟩
      exact hagree _ (mem_append_left _ hmem) _ (mem_append_right _ mem_cons_self) hkey

/-- What is taken in: all chunks, if they follow the first one and agree, in any order and however
often each arrives. -/
theorem foldlM_addChunk_cases (h : Holds data read) :
    (∃ data', chunks.foldlM (addChunk first) data = .ok data' ∧
      (∀ dup ∈ chunks, Follows first dup) ∧
        Holds data' (read ++ chunks)) ∨
      ∃ e, chunks.foldlM (addChunk first) data = .error e ∧
        ((∀ dup ∈ chunks, Follows first dup) → ¬Agree (read ++ chunks)) := by
  induction chunks generalizing data read with
  | nil => exact .inl ⟨data, rfl, nofun, by rwa [append_nil]⟩
  | cons dup chunks ih =>
    rw [foldlM_cons, append_cons]
    simp only [forall_mem_cons]
    rcases @addChunk_cases first _ dup _ h with ⟨next, hadd, hfollows, hnext⟩ | ⟨e, hadd, hnot⟩
    · rw [hadd]
      refine (ih hnext).imp ?_ ?_
      · exact fun ⟨data', hfold, hall, hdata⟩ ↦ ⟨data', hfold, ⟨hfollows, hall⟩, hdata⟩
      · exact fun ⟨e, hfold, hnot⟩ ↦ ⟨e, hfold, fun hall ↦ hnot hall.2⟩
    rw [hadd]
    exact .inr ⟨e, rfl, fun hall hagree ↦ hnot hall.1 hagree.of_append⟩

lemma IsPart.follows (h : IsPart shred parts dup) (hfirst : IsPart shred parts first) :
    Follows first dup := by
  obtain ⟨hlt, -⟩ := List.getElem?_eq_some_iff.mp h.chunk
  rw [Follows, hfirst.slot, hfirst.shredIndex, hfirst.shredType, hfirst.numChunks]
  exact ⟨h.slot, h.shredIndex, h.shredType, h.numChunks, hlt⟩

lemma mapM_get?_range (h : ∀ k c, data.get? k = some c ↔ parts[k]? = some c) :
    (range parts.length).mapM data.get? = some parts := by
  refine mapM_eq_some_iff.mpr (forall₂_iff_get.mpr ⟨length_range, fun k _ hk ↦ ?_⟩)
  rw [get_eq_getElem, getElem_range, h, get_eq_getElem, getElem?_eq_getElem hk]

/-! ### The shreds of a proof -/

lemma parseShred_eq_ok {payload : List UInt8} :
    parseShred payload = .ok shred ↔ newFromSerializedShred payload = .ok shred := by
  rw [parseShred]
  cases newFromSerializedShred payload with
  | ok a =>
    show Except.ok a = .ok shred ↔ _
    rw [Except.ok.injEq, Except.ok.injEq]
  | error e => exact ⟨nofun, nofun⟩

lemma checkShreds_eq_ok (h : checkShreds verifySignature leaderSchedule shred1 shred2 = .ok u) :
    shred1.slot = shred2.slot ∧ shred1.index = shred2.index ∧
      shred1.shredType = shred2.shredType ∧ shred1.payload ≠ shred2.payload := by
  unfold checkShreds at h
  split_ifs at h with hslot hindex htype hpayload
  exact ⟨not_not.mp hslot, not_not.mp hindex, not_not.mp htype, hpayload⟩

/-- What the receiver has checked of two shreds. -/
structure Conflicts (verifySignature : List UInt8 → Pubkey → List UInt8 → Bool)
    (slotLeader : Pubkey) (shred1 shred2 : Shred) : Prop where
  slot : shred1.slot = shred2.slot
  index : shred1.index = shred2.index
  shredType : shred1.shredType = shred2.shredType
  payload : shred1.payload ≠ shred2.payload
  signature1 : shred1.verify verifySignature slotLeader = true
  signature2 : shred2.verify verifySignature slotLeader = true

/-- The shreds that are returned conflict, and are about the slot of the first chunk. -/
theorem conflicts_of_shredsOfProof {data : List UInt8}
    (h : shredsOfProof verifySignature first slotLeader data = .ok (shred1, shred2)) :
    shred1.slot = first.slot ∧ Conflicts verifySignature slotLeader shred1 shred2 := by
  rw [shredsOfProof] at h
  split at h
  next => cases h
  next proof _ =>
    split_ifs at h with hproof
    obtain ⟨shred1', -, h⟩ := Codec.bind_eq_ok.mp h
    obtain ⟨shred2', -, h⟩ := Codec.bind_eq_ok.mp h
    split_ifs at h with hslot hindex htype hpayload hverify
    cases h
    simp only [not_or, not_not] at hslot hindex htype
    rw [Bool.or_eq_true, not_or, Bool.not_eq_true', Bool.not_eq_true', Bool.not_eq_false,
      Bool.not_eq_false] at hverify
    exact ⟨hslot.1, hslot.1.trans hslot.2.symm, hindex.1.trans hindex.2.symm,
      htype.1.trans htype.2.symm, hpayload, hverify.1, hverify.2⟩

lemma shredsOfProof_serialize (hproof : proof.shred1 ≠ proof.shred2)
    (hlen₁ : proof.shred1.length < 2 ^ 64) (hlen₂ : proof.shred2.length < 2 ^ 64)
    (hparse₁ : newFromSerializedShred proof.shred1 = .ok shred1)
    (hparse₂ : newFromSerializedShred proof.shred2 = .ok shred2)
    (hfirst : IsPart shred1 parts first)
    (hconflict : Conflicts verifySignature slotLeader shred1 shred2) :
    shredsOfProof verifySignature first slotLeader proof.serialize = .ok (shred1, shred2) := by
  rw [shredsOfProof, DuplicateSlotProof.deserialize_serialize hlen₁ hlen₂]
  simp only
  rw [if_neg hproof, parseShred_eq_ok.mpr hparse₁, parseShred_eq_ok.mpr hparse₂]
  show (if _ then _ else _) = _
  rw [← hconflict.slot, ← hconflict.index, ← hconflict.shredType, hfirst.slot, hfirst.shredIndex,
    hfirst.shredType, hconflict.signature1, hconflict.signature2, if_neg (by simp),
    if_neg (by simp), if_neg (by simp), if_neg hconflict.payload, if_neg (by simp)]

/-- Chunks that are there are put together: a list with the parts of a proof, in any order and any
number of times. -/
theorem intoShreds_of_parts {result : Shred × Shred} (hne : parts ≠ [])
    (hpart : ∀ dup ∈ received, IsPart shred parts dup)
    (hall : ∀ i < parts.length, ∃ dup ∈ received, dup.chunkIndex = i)
    (hleader : leader shred.slot = some slotLeader)
    (hshreds : ∀ first, IsPart shred parts first →
      shredsOfProof verifySignature first slotLeader parts.flatten = .ok result) :
    intoShreds verifySignature received leader = .ok result := by
  cases received with
  | nil =>
    obtain ⟨dup, hdup, -⟩ := hall 0 (length_pos_of_ne_nil hne)
    cases hdup
  | cons first chunks =>
    obtain ⟨hfirst, hchunks⟩ := forall_mem_cons.mp hpart
    have hagree : Agree (first :: chunks) := fun a ha b hb hk ↦ by
      have hchunk := (hpart a ha).chunk
      rw [hk, (hpart b hb).chunk] at hchunk
      exact (Option.some.inj hchunk).symm
    obtain ⟨data, hfold, -, hread⟩ | ⟨e, -, hnot⟩ :=
      @foldlM_addChunk_cases first _ chunks _ (holds_singleton first)
    swap
    · exact absurd hagree (hnot fun dup hdup ↦ (hchunks dup hdup).follows hfirst)
    have hdata : ∀ k c, data.get? k = some c ↔ parts[k]? = some c := by
      intro k c
      rw [hread k c]
      constructor
      · rintro ⟨dup, hdup, rfl, rfl⟩
        exact (hpart dup hdup).chunk
      intro h
      obtain ⟨hlt, -⟩ := List.getElem?_eq_some_iff.mp h
      obtain ⟨dup, hdup, rfl⟩ := hall k hlt
      exact ⟨dup, hdup, rfl, Option.some.inj ((hpart dup hdup).chunk.symm.trans h)⟩
    have hcount : data.entries.length = first.numChunks := by
      rw [hfirst.numChunks, ← Finset.card_range parts.length]
      refine length_entries_eq fun k ↦ ?_
      simp only [hdata, Finset.mem_range]
      exact ⟨fun hk ↦ ⟨_, getElem?_eq_getElem hk⟩,
        fun ⟨c, hc⟩ ↦ (List.getElem?_eq_some_iff.mp hc).1⟩
    rw [← hfirst.slot] at hleader
    have hparts := mapM_get?_range hdata
    rw [← hfirst.numChunks] at hparts
    refine bind_eq_ok.mpr ⟨slotLeader, okOr_eq_ok.mpr hleader, ?_⟩
    refine bind_eq_ok.mpr ⟨data, ofExcept_eq_ok.mpr hfold, ?_⟩
    refine bind_eq_ok.mpr ⟨(), failIf_eq_ok.mpr (decide_eq_false (not_not.mpr hcount)), ?_⟩
    refine bind_eq_ok.mpr ⟨parts, ofOption_eq_ok.mpr hparts, ?_⟩
    exact ofExcept_eq_ok.mpr (hshreds first hfirst)

/-! ### Chunks of any sender -/

/-- The lists that have one chunk taken that is not there. The first one has no place among the
chunks it announces; the others can follow it and all agree; and there are as many different
indexes as chunks announced. -/
structure Overruns (leader : Slot → Option Pubkey) (first : DuplicateShred)
    (chunks : List DuplicateShred) : Prop where
  leader : ∃ slotLeader, leader first.slot = some slotLeader
  beyond : first.numChunks ≤ first.chunkIndex
  follows : ∀ dup ∈ chunks, Follows first dup
  agree : Agree (first :: chunks)
  count : ((first :: chunks).map chunkIndex).toFinset.card = first.numChunks

/-- Chunks of as many different indexes as announced are those announced, unless the first one is
not among these. -/
theorem mapM_get?_eq_none (h : Holds data (first :: chunks))
    (hfollows : ∀ dup ∈ chunks, Follows first dup)
    (hcount : ((first :: chunks).map chunkIndex).toFinset.card = first.numChunks) :
    (range first.numChunks).mapM data.get? = none ↔ first.numChunks ≤ first.chunkIndex := by
  have hmem := h.mem_indexes
  have hfirst : first.chunkIndex ∈ ((first :: chunks).map chunkIndex).toFinset := by simp
  have hcard : ((first :: chunks).map chunkIndex).toFinset.card =
      (Finset.range first.numChunks).card := by rw [hcount, Finset.card_range]
  rcases hmap : (range first.numChunks).mapM data.get? with - | parts
  · refine iff_of_true rfl (not_lt.mp fun hlt ↦ ?_)
    have hsub : ((first :: chunks).map chunkIndex).toFinset ⊆ Finset.range first.numChunks := by
      intro k hk
      obtain ⟨dup, hdup, rfl⟩ := mem_map.mp (mem_toFinset.mp hk)
      rcases mem_cons.mp hdup with rfl | hdup
      · exact Finset.mem_range.mpr hlt
      · exact Finset.mem_range.mpr (hfollows dup hdup).2.2.2.2
    have heq := Finset.eq_of_subset_of_card_le hsub hcard.ge
    obtain ⟨parts, hparts⟩ := exists_mapM_eq_some fun k hk ↦
      (hmem k).mp (heq ▸ Finset.mem_range.mpr (mem_range.mp hk))
    rw [hparts] at hmap
    cases hmap
  refine iff_of_false nofun (not_le.mpr ?_)
  -- all that are announced are there, and leave no room for another one
  have hsub : Finset.range first.numChunks ⊆ ((first :: chunks).map chunkIndex).toFinset := by
    intro k hk
    exact (hmem k).mpr (exists_of_mapM_eq_some hmap (mem_range.mpr (Finset.mem_range.mp hk)))
  rw [← Finset.eq_of_subset_of_card_le hsub hcard.le] at hfirst
  exact Finset.mem_range.mp hfirst

/-- When putting chunks together panics, exactly. -/
theorem intoShreds_eq_panic :
    intoShreds verifySignature (first :: chunks) leader = .panic ↔
      Overruns leader first chunks := by
  cases hleader : leader first.slot with
  | none =>
    rw [intoShreds, hleader]
    exact iff_of_false nofun fun h ↦ by simpa [hleader] using h.leader
  | some slotLeader =>
    rcases @foldlM_addChunk_cases first _ chunks _ (holds_singleton first) with
      ⟨data, hfold, hfollows, hread⟩ | ⟨e, hfold, hnot⟩
    · have hlength := length_entries_eq hread.mem_indexes
      rw [intoShreds, hleader, hfold]
      show (failIf (decide (data.entries.length ≠ first.numChunks))
        Error.missingDataChunk >>= fun _ ↦
        ofOption ((range first.numChunks).mapM data.get?) >>= _) = .panic ↔ _
      by_cases hcount : data.entries.length = first.numChunks
      · have hnone := mapM_get?_eq_none hread hfollows (hlength.symm.trans hcount)
        rw [decide_eq_false (not_not.mpr hcount)]
        cases hmap : (range first.numChunks).mapM data.get? with
        | none =>
          exact iff_of_true rfl ⟨⟨_, hleader⟩, hnone.mp hmap, hfollows, hread.agree,
            hlength.symm.trans hcount⟩
        | some parts =>
          refine iff_of_false ofExcept_ne_panic fun h ↦ ?_
          rw [hnone.mpr h.beyond] at hmap
          cases hmap
      rw [decide_eq_true hcount]
      exact iff_of_false nofun fun h ↦ hcount (hlength.trans h.count)
    rw [intoShreds, hleader, hfold]
    exact iff_of_false nofun fun h ↦ hnot h.follows h.agree

lemma conflicts_of_intoShreds
    (h : intoShreds verifySignature received leader = .ok (shred1, shred2)) :
    ∃ slotLeader, leader shred1.slot = some slotLeader ∧
      Conflicts verifySignature slotLeader shred1 shred2 := by
  cases received with
  | nil => cases h
  | cons first chunks =>
    obtain ⟨slotLeader, hleader, h⟩ := bind_eq_ok.mp h
    obtain ⟨data, -, h⟩ := bind_eq_ok.mp h
    obtain ⟨u, -, h⟩ := bind_eq_ok.mp h
    obtain ⟨parts, -, h⟩ := bind_eq_ok.mp h
    obtain ⟨hslot, hconflict⟩ := conflicts_of_shredsOfProof (ofExcept_eq_ok.mp h)
    rw [← hslot] at hleader
    exact ⟨slotLeader, okOr_eq_ok.mp hleader, hconflict⟩

lemma fromShred_eq_ok {otherPayload : List UInt8} {otherShred : Shred}
    (h : fromShred verifySignature shred selfPubkey otherPayload leaderSchedule wallclock maxSize =
      .ok chunks) (hother : newFromSerializedShred otherPayload = .ok otherShred) :
    shred.payload ≠ otherPayload ∧
      (shred.slot = otherShred.slot ∧ shred.index = otherShred.index ∧
        shred.shredType = otherShred.shredType ∧ shred.payload ≠ otherShred.payload) ∧
      splitProof shred selfPubkey ⟨shred.payload, otherPayload⟩ wallclock maxSize = .ok chunks := by
  rw [fromShred] at h
  split_ifs at h with hpayload
  · cases h
  obtain ⟨parsed, hparse, h⟩ := Codec.bind_eq_ok.mp h
  obtain ⟨u, hcheck, h⟩ := Codec.bind_eq_ok.mp h
  obtain rfl : parsed = otherShred :=
    Except.ok.inj ((parseShred_eq_ok.mp hparse).symm.trans hother)
  exact ⟨hpayload, checkShreds_eq_ok hcheck, h⟩

/-- **Proofs of duplicate shreds are put together safely.** The chunks of two conflicting shreds
give the shreds back, in any order and with any repetitions; a list of chunks panics exactly if it
overruns, and so never if the first one has its place among the chunks; and two shreds that are
returned conflict and are both signed by the leader of their slot. -/
theorem duplicate_shreds_reassemble
    (verifySignature : List UInt8 → Pubkey → List UInt8 → Bool) (leader : Slot → Option Pubkey) :
    (∀ bytes shred selfPubkey otherPayload otherShred leaderSchedule wallclock maxSize chunks
        received slotLeader,
      newFromSerializedShred bytes = .ok shred →
      newFromSerializedShred otherPayload = .ok otherShred → otherPayload.length < 2 ^ 64 →
      leader shred.slot = some slotLeader → shred.verify verifySignature slotLeader = true →
      otherShred.verify verifySignature slotLeader = true →
      fromShred verifySignature shred selfPubkey otherPayload leaderSchedule wallclock maxSize =
        .ok chunks →
      (∀ dup, dup ∈ received ↔ dup ∈ chunks) →
      intoShreds verifySignature received leader = .ok (shred, otherShred)) ∧
    (∀ received : List DuplicateShred, intoShreds verifySignature received leader = .panic ↔
      ∃ first chunks, received = first :: chunks ∧ Overruns leader first chunks) ∧
    ∀ received shred1 shred2, intoShreds verifySignature received leader = .ok (shred1, shred2) →
      shred1.slot = shred2.slot ∧ shred1.index = shred2.index ∧
        shred1.shredType = shred2.shredType ∧ shred1.payload ≠ shred2.payload ∧
        ∃ slotLeader, leader shred1.slot = some slotLeader ∧
          shred1.verify verifySignature slotLeader = true ∧
          shred2.verify verifySignature slotLeader = true := by
  refine ⟨?_, fun received ↦ ?_, fun received shred1 shred2 h ↦ ?_⟩
  · intro bytes shred selfPubkey otherPayload otherShred leaderSchedule wallclock maxSize chunks
      received slotLeader hparse hother hlen hleader hverify hverify' hfrom hreceived
    obtain ⟨hne, ⟨hslot, hindex, htype, hpayload⟩, hsplit⟩ := fromShred_eq_ok hfrom hother
    obtain ⟨parts, hflatten, hpart, hall⟩ := splitProof_spec hsplit
    have hlen' : shred.payload.length < 2 ^ 64 := by
      rw [length_payload hparse]
      decide
    have hparts : parts ≠ [] := by
      rintro rfl
      have hzero := congrArg length hflatten
      rw [DuplicateSlotProof.serialize, length_append, length_leBytes] at hzero
      simp only [flatten_nil, length_nil] at hzero
      omega
    refine intoShreds_of_parts hparts (fun dup hdup ↦ hpart dup ((hreceived dup).mp hdup)) ?_
      hleader fun first hfirst ↦ ?_
    · intro i hi
      obtain ⟨dup, hdup, hindex⟩ := hall i hi
      exact ⟨dup, (hreceived dup).mpr hdup, hindex⟩
    rw [hflatten]
    exact shredsOfProof_serialize hne hlen' hlen (newFromSerializedShred_payload hparse)
      hother hfirst ⟨hslot, hindex, htype, hpayload, hverify, hverify'⟩
  · cases received with
    | nil => exact iff_of_false nofun (by simp)
    | cons first chunks => simp [intoShreds_eq_panic]
  obtain ⟨slotLeader, hleader, hconflict⟩ := conflicts_of_intoShreds h
  exact ⟨hconflict.slot, hconflict.index, hconflict.shredType, hconflict.payload, slotLeader,
    hleader, hconflict.signature1, hconflict.signature2⟩

/-- A data shred of slot 1 with a shred version, without its padding. -/
def exampleShred (version : UInt8) : List UInt8 :=
  replicate 64 0 ++ [0xa5, 1, 0, 0, 0, 0, 0, 0, 0, 0, 0, 0, 0, version, 0, 0, 0, 0, 0, 1, 0, 0,
    88, 0]

def exampleParsed (version : UInt8) : Shred :=
  ⟨⟨replicate 64 0, .data, 1, 0, version.toNat, 0⟩, ⟨1, 0, 88⟩, ⟨0, 0, 0⟩,
    resize (exampleShred version) shredPayloadSize⟩

/-- The chunks of the proof that shows two versions. -/
def exampleChunk (i : ℕ) : DuplicateShred :=
  ⟨⟨0⟩, 0, 1, 0, .data, 2, i,
    ((DuplicateSlotProof.serialize ⟨(exampleParsed 0).payload, exampleShred 1⟩).drop
      (i * 800)).take 800⟩

/-- Two versions of a shred, sent in two chunks that arrive in the other order and one of them
twice. -/
theorem duplicate_shreds_reassemble_two_chunks :
    fromShred (fun _ _ _ ↦ true) (exampleParsed 0) ⟨0⟩ (exampleShred 1) none 0 863 =
        .ok [exampleChunk 0, exampleChunk 1] ∧
      intoShreds (fun _ _ _ ↦ true) [exampleChunk 1, exampleChunk 0, exampleChunk 1]
        (fun _ ↦ some ⟨7⟩) = .ok (exampleParsed 0, exampleParsed 1) := by
  have hmem : ∀ a b dup : DuplicateShred, dup ∈ [b, a, b] ↔ dup ∈ [a, b] := by
    intro a b dup
    simp only [mem_cons, not_mem_nil, or_false]
    tauto
  have hfrom : fromShred (fun _ _ _ ↦ true) (exampleParsed 0) ⟨0⟩ (exampleShred 1) none 0 863 =
      .ok [exampleChunk 0, exampleChunk 1] := by decide +kernel
  exact ⟨hfrom, (duplicate_shreds_reassemble (fun _ _ _ ↦ true) fun _ ↦ some ⟨7⟩).1
    (exampleShred 0) (exampleParsed 0) ⟨0⟩ (exampleShred 1) (exampleParsed 1) none 0 863
    [exampleChunk 0, exampleChunk 1] _ ⟨7⟩ (by decide +kernel) (by decide +kernel)
    (by decide +kernel) rfl rfl rfl hfrom (hmem _ _)⟩

/-- **One chunk that calls itself the sixth of one**: as many chunks as announced, but not the
one that is taken first. -/
theorem into_shreds_panics :
    intoShreds (fun _ _ _ ↦ true) [⟨⟨0⟩, 0, 1, 0, .data, 1, 5, []⟩] (fun _ ↦ some ⟨7⟩) =
      .panic := by
  decide

end DuplicateShred

end Renec.Gossip
