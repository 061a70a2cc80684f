import Renec.Collections.Slices
import Renec.Sdk.VersionedMessage
import Renec.Stake.Program

/-!
# Signature verification of packets

`verify_packet` (`perf/src/sigverify.rs`) checks the signatures of a transaction before the
transaction is deserialized: `doGetPacketOffsets` finds the signatures, the keys and the message in
the bytes of the packet by skipping through them, and reads only the lengths, the prefix of the
message and two bytes of its header.
-/

namespace Renec

open List Outcome Wire Option VersionedMessage ShortU16

/-! ### Transactions -/

/-- `Signature`. -/
abbrev Signature := { bytes : List UInt8 // bytes.length = 64 }

def signatureCodec : Codec UInt8 SerdeError Signature := .block .unexpectedEof 64

namespace Wire

def VersionedMessage.codec : Codec UInt8 SerdeError VersionedMessage where
  encode := serialize
  decode := deserialize

structure VersionedTransaction where
  signatures : List Signature
  message : VersionedMessage

def versionedTransaction : Codec UInt8 SerdeError VersionedTransaction :=
  ((shortVec signatureCodec).pair codec).map
    ⟨fun p ↦ ⟨p.1, p.2⟩, fun tx ↦ (tx.1, tx.2), fun _ ↦ rfl, fun _ ↦ rfl⟩

end Wire

/-! ### Packets -/

/-- `PACKET_DATA_SIZE`. -/
def packetDataSize : ℕ := 1280 - 40 - 8

/-- A packet, with the flags that are read or set here. -/
structure Packet where
  data : List UInt8
  size : ℕ
  discard : Bool
  isSimpleVoteTx : Bool
  isTracerTx : Bool
  data_length : data.length = packetDataSize

structure PacketOffsets where
  sigLen : ℕ
  sigStart : ℕ
  msgStart : ℕ
  pubkeyStart : ℕ
  pubkeyLen : ℕ
  deriving DecidableEq

inductive PacketError where
  | invalidLen
  | invalidPubkeyLen
  | invalidShortVec
  | invalidSignatureLen
  | mismatchSignatureLen
  | payerNotWritable
  | invalidProgramIdIndex
  | invalidProgramLen
  | unsupportedVersion
  deriving DecidableEq

/-- `TRACER_KEY_BYTES`. -/
def tracerKeyBytes : List UInt8 :=
  [13, 37, 180, 170, 252, 137, 36, 194, 183, 143, 161, 193, 201, 207, 211, 23, 189, 93, 33, 110,
    155, 90, 30, 39, 116, 115, 238, 38, 126, 21, 232, 133]

/-- `size_of::<Signature>()`. -/
def signatureBytes : ℕ := 64

/-- `size_of::<Pubkey>()`. -/
def pubkeyBytes : ℕ := 32

/-- `size_of::<Hash>()`. -/
def hashBytes : ℕ := 32

/-- `MESSAGE_HEADER_LENGTH`. -/
def messageHeaderLength : ℕ := 3

namespace Packet

variable (packet : Packet)

/-- `decode_shortu16_len(&packet.data[start..])`. -/
def shortLenAt (start : ℕ) (e : PacketError) : Outcome PacketError (ℕ × ℕ) := do
  let bytes ← ofOption (packet.data.slice? start packet.data.length)
  match decodeShortu16Len bytes with
  | .ok p => .ok p
  | .error _ => .err e

/-- The start of the message header, behind the prefix of a versioned message. -/
def msgHeaderOffset (msgStartOffset : ℕ) : Outcome PacketError ℕ := do
  failIf (packet.size ≤ msgStartOffset) .invalidSignatureLen
  let messagePrefix ← ofOption packet.data[msgStartOffset]?
  if messagePrefix &&& messageVersionPrefix ≠ 0 then
    let version := messagePrefix &&& ~~~messageVersionPrefix
    if version = 0 then okOr .invalidLen (checkedAdd 64 msgStartOffset 1)
    else .err .unsupportedVersion
  else .ok msgStartOffset

/-- `u32::try_from`. -/
def tryU32 (x : ℕ) : Outcome PacketError ℕ := if x < 2 ^ 32 then .ok x else .err .invalidLen

/-- `do_get_packet_offsets`. -/
def doGetPacketOffsets (currentOffset : ℕ) : Outcome PacketError PacketOffsets := do
  -- should have at least 1 signature and sig lengths
  let _ ← okOr .invalidLen ((checkedAdd 64 1 signatureBytes).filter (· ≤ packet.size))
  let (sigLenUntrusted, sigSize) ← packet.shortLenAt 0 .invalidShortVec
  let msgStartOffset ← okOr .invalidLen
    ((checkedMul 64 sigLenUntrusted signatureBytes).bind fun v ↦ checkedAdd 64 v sigSize)
  let msgHeaderOffset ← packet.msgHeaderOffset msgStartOffset
  let msgHeaderOffsetPlusOne ← okOr .invalidLen (checkedAdd 64 msgHeaderOffset 1)
  -- should have data at least for the header and 1 byte for the number of keys
  let _ ← okOr .invalidSignatureLen
    ((checkedAdd 64 msgHeaderOffsetPlusOne messageHeaderLength).filter (· ≤ packet.size))
  let sigLenMaybeTrusted ← ofOption packet.data[msgHeaderOffset]?
  let messageAccountKeysLenOffset ← okOr .invalidSignatureLen
    (checkedAdd 64 msgHeaderOffset messageHeaderLength)
  let readonlySigners ← ofOption packet.data[msgHeaderOffsetPlusOne]?
  failIf (sigLenMaybeTrusted ≤ readonlySigners) .payerNotWritable
  failIf (sigLenMaybeTrusted.toNat ≠ sigLenUntrusted) .mismatchSignatureLen
  let (pubkeyLen, pubkeyLenSize) ← packet.shortLenAt messageAccountKeysLenOffset .invalidShortVec
  let pubkeyStart ← okOr .invalidPubkeyLen (checkedAdd 64 messageAccountKeysLenOffset pubkeyLenSize)
  let _ ← okOr .invalidPubkeyLen
    (((checkedMul 64 pubkeyLen pubkeyBytes).bind fun v ↦ checkedAdd 64 v pubkeyStart).filter
      (· ≤ packet.size))
  failIf (pubkeyLen < sigLenUntrusted) .invalidPubkeyLen
  let sigStart ← okOr .invalidLen (checkedAdd 64 currentOffset sigSize)
  let msgStart ← okOr .invalidLen (checkedAdd 64 currentOffset msgStartOffset)
  let pubkeyStart ← okOr .invalidLen (checkedAdd 64 currentOffset pubkeyStart)
  return ⟨← tryU32 sigLenUntrusted, ← tryU32 sigStart, ← tryU32 msgStart, ← tryU32 pubkeyStart,
    ← tryU32 pubkeyLen⟩

/-- `check_for_simple_vote_transaction`; the returned packet has the flag. -/
def checkForSimpleVoteTransaction (offsets : PacketOffsets) (currentOffset : ℕ) :
    Outcome PacketError Packet := do
  failIf (2 < offsets.sigLen) .invalidSignatureLen
  let pubkeyStart ← okOr .invalidLen (checkedSub offsets.pubkeyStart currentOffset)
  let instructionsLenOffset ← okOr .invalidLen
    (((checkedMul 64 offsets.pubkeyLen pubkeyBytes).bind fun v ↦ checkedAdd 64 v pubkeyStart).bind
      fun v ↦ checkedAdd 64 v hashBytes)
  let _ ← okOr .invalidLen ((checkedAdd 64 instructionsLenOffset 1).filter (· ≤ packet.size))
  let (instructionLen, instructionLenSize) ← packet.shortLenAt instructionsLenOffset .invalidLen
  failIf (instructionLen ≠ 1) .invalidProgramLen
  let instructionStart ← okOr .invalidLen (checkedAdd 64 instructionsLenOffset instructionLenSize)
  let _ ← okOr .invalidLen ((checkedAdd 64 instructionStart 1).filter (· ≤ packet.size))
  let instructionProgramIdIndex ← ofOption packet.data[instructionStart]?
  failIf (offsets.pubkeyLen ≤ instructionProgramIdIndex.toNat) .invalidProgramIdIndex
  let instructionProgramIdStart ← okOr .invalidLen
    ((checkedMul 64 instructionProgramIdIndex.toNat pubkeyBytes).bind
      fun v ↦ checkedAdd 64 v pubkeyStart)
  let instructionProgramIdEnd ← okOr .invalidLen
    (checkedAdd 64 instructionProgramIdStart pubkeyBytes)
  let programId ← ofOption (packet.data.slice? instructionProgramIdStart instructionProgramIdEnd)
  return { packet with
    isSimpleVoteTx := packet.isSimpleVoteTx || programId == Bincode.beBytes voteProgramId.bits }

/-- `get_packet_offsets`; zeros make the verification fail. -/
def getPacketOffsets (currentOffset : ℕ) (rejectNonVote : Bool) : Option (PacketOffsets × Packet) :=
  match packet.doGetPacketOffsets currentOffset with
  | .panic => none
  | .err _ => some (⟨0, 0, 0, 0, 0⟩, packet)
  | .ok offsets =>
    match packet.checkForSimpleVoteTransaction offsets currentOffset with
    | .panic => none
    | .ok packet =>
      if !rejectNonVote || packet.isSimpleVoteTx then some (offsets, packet)
      else some (⟨0, 0, 0, 0, 0⟩, packet)
    | .err _ =>
      if !rejectNonVote || packet.isSimpleVoteTx then some (offsets, packet)
      else some (⟨0, 0, 0, 0, 0⟩, packet)

section

variable (verify : List UInt8 → List UInt8 → List UInt8 → Bool)

/-- The loop of `verify_packet` over `n` signatures; `verify` is the signature scheme. -/
def verifyFrom (msgStart : ℕ) : ℕ → ℕ → ℕ → Packet → Option Packet
  | 0, _, _, packet => some packet
  | n + 1, pubkeyStart, sigStart, packet => do
    let pubkeyEnd := saturatingAdd 64 pubkeyStart pubkeyBytes
    let sigEnd := saturatingAdd 64 sigStart signatureBytes
    let signature ← packet.data.slice? sigStart sigEnd
    let pubkey ← packet.data.slice? pubkeyStart pubkeyEnd
    let message ← packet.data.slice? msgStart packet.size
    if !verify signature pubkey message then some { packet with discard := true }
    else
      verifyFrom msgStart n pubkeyEnd sigEnd
        { packet with isTracerTx := packet.isTracerTx || pubkey == tracerKeyBytes }

/-- `verify_packet`. -/
def verifyPacket (packet : Packet) (rejectNonVote : Bool) : Option Packet :=
  if packet.discard then some packet
  else do
    let (offsets, packet) ← packet.getPacketOffsets 0 rejectNonVote
    if offsets.sigLen = 0 then some { packet with discard := true }
    else if packet.size ≤ offsets.msgStart then some { packet with discard := true }
    else
      verifyFrom verify offsets.msgStart offsets.sigLen offsets.pubkeyStart offsets.sigStart packet

end

/-! ### What the offsets are -/

variable {packet packet' : Packet} {offsets : PacketOffsets} {tx : VersionedTransaction}
  {bytes : List UInt8} {n start : ℕ}

lemma shortLenAt_eq_ok {size : ℕ} {e : PacketError}
    (h : packet.shortLenAt start e = .ok (n, size)) :
    decodeShortu16Len (packet.data.drop start) = .ok (n, size) := by
  obtain ⟨bytes, hslice, h⟩ := bind_eq_ok.mp h
  rw [ofOption_eq_ok, List.slice?, take_length] at hslice
  split_ifs at hslice
  cases hslice
  split at h
  · rename_i p heq
    rw [heq, ok.inj h]
  · cases h

lemma msgHeaderOffset_eq_ok {header : ℕ} (h : packet.msgHeaderOffset start = .ok header) :
    start < packet.size ∧ ∃ first, packet.data[start]? = some first ∧
      (first.toNat < 128 ∧ header = start ∨
        first = messageVersionPrefix ∧ header = start + 1) := by
  simp only [msgHeaderOffset, bind_eq_ok, failIf_eq_ok, decide_eq_false_iff_not, not_le,
    ofOption_eq_ok] at h
  obtain ⟨-, hlt, first, hfirst, h⟩ := h
  refine ⟨hlt, first, hfirst, ?_⟩
  have hbits := and_versionBit first.toNat first.toNat_lt
  rw [UInt8.ofNat_toNat] at hbits
  split_ifs at h with hprefix hversion
  · rw [okOr_eq_ok, checkedAdd_eq_some] at h
    have hle : 128 ≤ first.toNat := by
      by_contra hlt
      exact hprefix (hbits.1.mpr (by omega))
    exact .inr ⟨UInt8.toNat_inj.mp ((hbits.2 hle).mp hversion), h.2.symm⟩
  · exact .inl ⟨hbits.1.mp (not_not.mp hprefix), (ok.inj h).symm⟩

lemma tryU32_eq_ok {x y : ℕ} (h : tryU32 x = .ok y) : y = x := by
  rw [tryU32] at h
  split_ifs at h
  exact (ok.inj h).symm

/-- Inversion of the offsets: what was read, where, and how it was compared. -/
theorem doGetPacketOffsets_eq_ok (h : packet.doGetPacketOffsets 0 = .ok offsets) :
    ∃ sigSize header first required readonly pubkeyLenSize,
      decodeShortu16Len packet.data = .ok (offsets.sigLen, sigSize) ∧
      offsets.sigStart = sigSize ∧ offsets.msgStart = 64 * offsets.sigLen + sigSize ∧
      offsets.msgStart < packet.size ∧ packet.data[offsets.msgStart]? = some first ∧
      (first.toNat < 128 ∧ header = offsets.msgStart ∨
        first = messageVersionPrefix ∧ header = offsets.msgStart + 1) ∧
      packet.data[header]? = some required ∧ packet.data[header + 1]? = some readonly ∧
      readonly.toNat < required.toNat ∧ required.toNat = offsets.sigLen ∧
      decodeShortu16Len (packet.data.drop (header + 3)) = .ok (offsets.pubkeyLen, pubkeyLenSize) ∧
      offsets.pubkeyStart = header + 3 + pubkeyLenSize ∧
      32 * offsets.pubkeyLen + offsets.pubkeyStart ≤ packet.size ∧
      offsets.sigLen ≤ offsets.pubkeyLen := by
  simp only [doGetPacketOffsets, bind_eq_ok, okOr_eq_ok, failIf_eq_ok, ofOption_eq_ok,
    checkedAdd_eq_some, checkedMul_eq_some, bind_eq_some_iff, filter_eq_some_iff,
    pure_eq_ok, ok.injEq, decide_eq_false_iff_not, not_lt, not_not, decide_eq_true_eq,
    Nat.zero_add, Prod.exists] at h
  obtain ⟨_, _, sigLen, sigSize, hsig, _, ⟨_, ⟨_, e₁⟩, _, e₂⟩, h⟩ := h
  obtain ⟨header, hheader, _, ⟨_, e₃⟩, _, _, required, hrequired, _, ⟨_, e₄⟩, h⟩ := h
  obtain ⟨readonly, hreadonly, _, hpayer, _, hmatch, pubkeyLen, pubkeyLenSize, hpubkey, h⟩ := h
  obtain ⟨_, ⟨_, e₅⟩, _, ⟨⟨_, ⟨_, e₆⟩, _, e₇⟩, hsize⟩, _, hlen, h⟩ := h
  obtain ⟨_, ⟨_, e₈⟩, _, ⟨_, e₉⟩, _, ⟨_, e₁₀⟩, _, h₁, _, h₂, _, h₃, _, h₄, _, h₅, rfl⟩ := h
  obtain rfl := tryU32_eq_ok h₁
  obtain rfl := tryU32_eq_ok h₂
  obtain rfl := tryU32_eq_ok h₃
  obtain rfl := tryU32_eq_ok h₄
  obtain rfl := tryU32_eq_ok h₅
  subst e₁ e₂ e₃ e₄ e₅ e₆ e₇ e₈ e₉ e₁₀
  obtain ⟨hlt, first, hfirst, hprefix⟩ := msgHeaderOffset_eq_ok hheader
  have hdata := shortLenAt_eq_ok hsig
  rw [drop_zero] at hdata
  refine ⟨_, header, first, required, readonly, pubkeyLenSize, hdata, rfl, ?_, hlt, hfirst,
    hprefix, hrequired, hreadonly, Nat.lt_of_not_le hpayer, hmatch, shortLenAt_eq_ok hpubkey, rfl,
    ?_, hlen⟩
  · rw [Nat.mul_comm]
    rfl
  rw [Nat.mul_comm]
  exact hsize

/-! ### Agreement with the decoder -/

lemma length_keyBytes (key : Pubkey) : (keyBytes key).length = 32 := Bincode.length_beBytes _

lemma versionedTransaction_layout (h : versionedTransaction.decode bytes = .ok (tx, [])) :
    ∃ message, bytes = serialize tx.signatures.length ++
        tx.signatures.flatMap Subtype.val ++ message ∧
      tx.signatures.length < 2 ^ 16 ∧ deserialize message = .ok (tx.message, []) := by
  obtain ⟨message, hsignatures, hmessage⟩ :=
    Codec.pair_decode_eq_ok.mp (Codec.map_decode_eq_ok.mp h)
  obtain ⟨taken, htaken, rfl⟩ := (shortVec_exact (Codec.block_exact _ _)).canonical hsignatures
  have hencode : ∀ s : Signature, signatureCodec.encode s = .ok s.1 := fun _ ↦ rfl
  obtain ⟨hlen, rfl⟩ := (shortVec_encode_eq_ok hencode).mp htaken
  exact ⟨message, rfl, hlen, hmessage⟩

/-- The slices of a packet that the offsets name are the parts of the transaction. -/
structure Means (packet : Packet) (offsets : PacketOffsets) (tx : VersionedTransaction) :
    Prop where
  signatures_length : tx.signatures.length = offsets.sigLen
  keys_length : offsets.sigLen ≤ tx.message.staticAccountKeys.length
  signature : ∀ {i signature}, tx.signatures[i]? = some signature →
    packet.data.slice? (offsets.sigStart + 64 * i) (offsets.sigStart + 64 * i + 64) =
      some signature.1
  key : ∀ {i key}, tx.message.staticAccountKeys[i]? = some key →
    packet.data.slice? (offsets.pubkeyStart + 32 * i) (offsets.pubkeyStart + 32 * i + 32) =
      some (keyBytes key)
  message : ∃ message, tx.message.serialize = .ok message ∧
    packet.data.slice? offsets.msgStart packet.size = some message

/-- The offsets mean the transaction that the bytes of the packet decode to. -/
theorem means_of_decode (h : packet.doGetPacketOffsets 0 = .ok offsets)
    (hbytes : packet.data.slice? 0 packet.size = some bytes)
    (hdecode : versionedTransaction.decode bytes = .ok (tx, [])) : Means packet offsets tx := by
  obtain ⟨_, header, first, required, readonly, pubkeyLenSize, hsig, hsigStart, hmsgStart, -,
    hfirst, hheader, -, -, -, -, hpubkey, hpubkeyStart, -, hlen⟩ := doGetPacketOffsets_eq_ok h
  obtain ⟨before, behind, hdata, hbefore, hsize⟩ := slice?_eq_some.mp hbytes
  obtain rfl := eq_nil_of_length_eq_zero hbefore
  obtain ⟨message, rfl, hcount, hmessage⟩ := versionedTransaction_layout hdecode
  obtain ⟨taken, hserialize, htaken⟩ := serialize_of_deserialize hmessage
  obtain ⟨version, others, hlayout, hkeys, hversion⟩ := deserialize_layout hmessage
  rw [append_nil] at htaken
  subst htaken
  -- the parts of the packet, up to what follows the transaction
  set len := serialize tx.signatures.length with hlendef
  set sigs := tx.signatures.flatMap Subtype.val with hsigs
  have hsigsLength : sigs.length = 64 * tx.signatures.length := length_flatMap_of_forall fun s ↦ s.2
  rw [nil_append] at hdata
  have hcountEq : offsets.sigLen = tx.signatures.length ∧ offsets.sigStart = len.length := by
    rw [hdata, append_assoc, append_assoc,
      decodeShortu16Len_append hcount, Except.ok.injEq, Prod.mk.injEq] at hsig
    exact ⟨hsig.1.symm, hsigStart.trans hsig.2.symm⟩
  have hmsg : (len ++ sigs).length = offsets.msgStart := by
    rw [length_append, hsigsLength, hmsgStart, ← hsigStart, hcountEq.1, hcountEq.2, Nat.add_comm]
  have hget : packet.data[offsets.msgStart]? = (message ++ behind)[0]? := by
    rw [hdata, append_assoc, getElem?_append_right hmsg.le, hmsg, Nat.sub_self]
  -- the first byte of the message decides where both readers find the header
  have hheaderEq : header = offsets.msgStart + version.length := by
    rw [hget, hlayout] at hfirst
    rcases hversion with ⟨rfl, hlt⟩ | rfl
    · cases hfirst
      rcases hheader with ⟨-, hheader⟩ | ⟨heq, -⟩
      · exact hheader
      rw [heq] at hlt
      exact absurd hlt (by decide)
    cases hfirst
    rcases hheader with ⟨hlt, -⟩ | ⟨-, hheader⟩
    · exact absurd hlt (by decide)
    · exact hheader
  have hfront : (len ++ sigs ++ version ++ [tx.message.header.numRequiredSignatures,
      tx.message.header.numReadonlySignedAccounts,
      tx.message.header.numReadonlyUnsignedAccounts]).length = header + 3 := by
    rw [length_append, length_append, hmsg, hheaderEq]
    rfl
  have hparts : packet.data = len ++ sigs ++ version ++ [tx.message.header.numRequiredSignatures,
      tx.message.header.numReadonlySignedAccounts, tx.message.header.numReadonlyUnsignedAccounts] ++
      (serialize tx.message.staticAccountKeys.length ++
        (tx.message.staticAccountKeys.flatMap keyBytes ++ (others ++ behind))) := by
    rw [hdata, hlayout]
    simp only [append_assoc]
  have hpubkeys : offsets.pubkeyLen = tx.message.staticAccountKeys.length ∧
      pubkeyLenSize = (serialize tx.message.staticAccountKeys.length).length := by
    rw [hparts, drop_left' hfront, decodeShortu16Len_append hkeys, Except.ok.injEq,
      Prod.mk.injEq] at hpubkey
    exact ⟨hpubkey.1.symm, hpubkey.2.symm⟩
  refine ⟨hcountEq.1.symm, hpubkeys.1 ▸ hlen, fun {i signature} hi ↦ ?_, fun {i key} hi ↦ ?_,
    message, hserialize, ?_⟩
  · rw [hdata, append_assoc, hsigs]
    exact slice?_blocks (fun s ↦ s.2) hcountEq.2.symm hi
  · rw [hparts, ← append_assoc, ← append_assoc]
    refine slice?_blocks length_keyBytes ?_ hi
    rw [length_append, hfront, hpubkeyStart, hpubkeys.2]
  rw [hdata]
  refine slice?_append hmsg ?_
  rw [← hmsg, ← length_append, ← hsize, Nat.zero_add]

/-! ### Verification -/

variable {verify : List UInt8 → List UInt8 → List UInt8 → Bool}

lemma verify_of_verifyFrom {msgStart pubkeyStart sigStart : ℕ}
    (h : verifyFrom verify msgStart n pubkeyStart sigStart packet = some packet')
    (hdiscard : packet'.discard = false) :
    ∀ i < n, ∃ signature pubkey message,
      packet.data.slice? (sigStart + 64 * i) (sigStart + 64 * i + 64) = some signature ∧
      packet.data.slice? (pubkeyStart + 32 * i) (pubkeyStart + 32 * i + 32) = some pubkey ∧
      packet.data.slice? msgStart packet.size = some message ∧
      verify signature pubkey message = true := by
  induction n generalizing pubkeyStart sigStart packet with
  | zero => exact fun i hi ↦ absurd hi (Nat.not_lt_zero i)
  | succ n ih =>
    simp only [verifyFrom, bind_eq_some] at h
    obtain ⟨signature, hsignature, pubkey, hpubkey, message, hmessage, h⟩ := h
    -- the ends of slices that exist are far from the end of the type
    have hend : ∀ {a b : ℕ} {part}, packet.data.slice? a (saturatingAdd 64 a b) = some part →
        saturatingAdd 64 a b = a + b := by
      intro a b part hslice
      have hle := (length_of_slice? hslice).2
      rw [packet.data_length] at hle
      refine saturatingAdd_eq_add (lt_of_le_of_lt hle (by decide))
    rw [hend hsignature, hend hpubkey] at h
    rw [hend hsignature] at hsignature
    rw [hend hpubkey] at hpubkey
    split_ifs at h with hverify
    · cases h
      cases hdiscard
    have hrest := ih h
    intro i hi
    cases i with
    | zero =>
      exact ⟨signature, pubkey, message, hsignature, hpubkey, hmessage, by simpa using hverify⟩
    | succ i =>
      have := hrest i (by omega)
      rw [show sigStart + 64 * (i + 1) = sigStart + signatureBytes + 64 * i by
          rw [signatureBytes]; ring,
        show pubkeyStart + 32 * (i + 1) = pubkeyStart + pubkeyBytes + 32 * i by
          rw [pubkeyBytes]; ring]
      exact this

lemma checkForSimpleVoteTransaction_eq_ok {currentOffset : ℕ}
    (h : packet.checkForSimpleVoteTransaction offsets currentOffset = .ok packet') :
    packet'.data = packet.data ∧ packet'.size = packet.size := by
  simp only [checkForSimpleVoteTransaction, bind_eq_ok, pure_eq_ok, ok.injEq] at h
  obtain ⟨-, -, _, -, _, -, _, -, ⟨_, _⟩, -, -, -, _, -, _, -, _, -, -, -, _, -, _, -, _, -, rfl⟩ :=
    h
  exact ⟨rfl, rfl⟩

variable {rejectNonVote : Bool}

lemma getPacketOffsets_eq_some
    (h : packet.getPacketOffsets 0 rejectNonVote = some (offsets, packet'))
    (hlen : offsets.sigLen ≠ 0) :
    packet.doGetPacketOffsets 0 = .ok offsets ∧ packet'.data = packet.data ∧
      packet'.size = packet.size := by
  rw [getPacketOffsets] at h
  split at h
  · cases h
  · cases h
    exact absurd rfl hlen
  rename_i offsets' hoffsets
  split at h
  · cases h
  · rename_i packet₁ hcheck
    split_ifs at h
    · cases h
      exact ⟨hoffsets, checkForSimpleVoteTransaction_eq_ok hcheck⟩
    cases h
    exact absurd rfl hlen
  split_ifs at h
  · cases h
    exact ⟨hoffsets, rfl, rfl⟩
  cases h
  exact absurd rfl hlen

lemma verifyPacket_eq_some (h : packet.verifyPacket verify rejectNonVote = some packet')
    (hdiscard : packet'.discard = false) :
    ∃ offsets, packet.doGetPacketOffsets 0 = .ok offsets ∧
      ∀ i < offsets.sigLen, ∃ signature pubkey message,
        packet.data.slice? (offsets.sigStart + 64 * i) (offsets.sigStart + 64 * i + 64) =
          some signature ∧
        packet.data.slice? (offsets.pubkeyStart + 32 * i) (offsets.pubkeyStart + 32 * i + 32) =
          some pubkey ∧
        packet.data.slice? offsets.msgStart packet.size = some message ∧
        verify signature pubkey message = true := by
  rw [verifyPacket] at h
  split_ifs at h with hstart
  · cases h
    rw [hstart] at hdiscard
    cases hdiscard
  simp only [bind_eq_some] at h
  obtain ⟨⟨offsets, packet₁⟩, hoffsets, h⟩ := h
  dsimp only at h
  split_ifs at h with hzero hsize
  · cases h
    cases hdiscard
  · cases h
    cases hdiscard
  obtain ⟨hfound, hdata, hsame⟩ := getPacketOffsets_eq_some hoffsets hzero
  refine ⟨offsets, hfound, ?_⟩
  rw [← hdata, ← hsame]
  exact verify_of_verifyFrom h hdiscard

/-- **Signature verification checks the bytes the transaction means.** If offsets are found there is
a signature, and what is read at them is inside the packet. If the content decodes completely as a
transaction, the slices are its signatures, as many of its static keys in their order, and its
message; and if the packet is not discarded, each signature verifies under the static key at its
index. -/
theorem verifyPacket_sound (verify : List UInt8 → List UInt8 → List UInt8 → Bool)
    (packet : Packet) :
    (∀ offsets, packet.doGetPacketOffsets 0 = .ok offsets →
      1 ≤ offsets.sigLen ∧ offsets.msgStart < packet.size ∧
      (∀ i < offsets.sigLen, offsets.sigStart + 64 * i + 64 ≤ packet.size ∧
        offsets.pubkeyStart + 32 * i + 32 ≤ packet.size) ∧
      ∀ bytes tx, packet.data.slice? 0 packet.size = some bytes →
        versionedTransaction.decode bytes = .ok (tx, []) → Means packet offsets tx) ∧
    ∀ rejectNonVote packet' bytes tx,
      packet.verifyPacket verify rejectNonVote = some packet' → packet'.discard = false →
      packet.data.slice? 0 packet.size = some bytes →
      versionedTransaction.decode bytes = .ok (tx, []) →
      ∃ message, tx.message.serialize = .ok message ∧
        ∀ (i : ℕ) (signature : Signature), tx.signatures[i]? = some signature →
          ∃ key, tx.message.staticAccountKeys[i]? = some key ∧
            verify signature.1 (keyBytes key) message = true := by
  refine ⟨fun offsets h ↦ ?_, fun rejectNonVote packet' bytes tx h hdiscard hbytes hdecode ↦ ?_⟩
  · obtain ⟨_, header, first, required, readonly, pubkeyLenSize, -, hsigStart, hmsgStart, hsize, -,
      -, -, -, hpayer, hrequired, -, -, hkeys, hlen⟩ := doGetPacketOffsets_eq_ok h
    refine ⟨by omega, hsize, fun i hi ↦ ⟨by omega, by omega⟩, fun bytes tx hbytes hdecode ↦ ?_⟩
    exact means_of_decode h hbytes hdecode
  obtain ⟨offsets, hfound, hverified⟩ := verifyPacket_eq_some h hdiscard
  have hmeans := means_of_decode hfound hbytes hdecode
  obtain ⟨message, hserialize, hmessage⟩ := hmeans.message
  refine ⟨message, hserialize, fun i signature hi ↦ ?_⟩
  obtain ⟨hlt, -⟩ := List.getElem?_eq_some_iff.mp hi
  rw [hmeans.signatures_length] at hlt
  have hkey := getElem?_eq_getElem (hlt.trans_le hmeans.keys_length)
  obtain ⟨s, k, m, hs, hk, hm, hverify⟩ := hverified i hlt
  rw [hmeans.signature hi] at hs
  rw [hmeans.key hkey] at hk
  rw [hmessage] at hm
  cases hs
  cases hk
  cases hm
  exact ⟨_, hkey, hverify⟩

end Packet

end Renec
