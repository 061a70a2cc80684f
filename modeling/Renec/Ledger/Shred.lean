import Renec.Machine.Codec
import Renec.Sdk.Nonce

/-!
# Shreds

The pieces of a block as they are sent through the network (`ledger/src/shred.rs`): a common header,
a header for data or for coding shreds, and the payload in which both are written. A shred is parsed
from bytes of any length; the payload is then padded or cut to its size.
-/

namespace Renec

open Bincode List

/-- `SIZE_OF_COMMON_SHRED_HEADER`. -/
def sizeOfCommonShredHeader : ℕ := 83

/-- `SIZE_OF_DATA_SHRED_HEADER`. -/
def sizeOfDataShredHeader : ℕ := 5

/-- `SIZE_OF_CODING_SHRED_HEADER`. -/
def sizeOfCodingShredHeader : ℕ := 6

/-- `SIZE_OF_SIGNATURE`. -/
def sizeOfSignature : ℕ := 64

/-- `SHRED_PAYLOAD_SIZE`: a packet without the nonce. -/
def shredPayloadSize : ℕ := 1232 - 4

/-- `MAX_DATA_SHREDS_PER_FEC_BLOCK`. -/
def maxDataShredsPerFecBlock : ℕ := 32

inductive ShredType where
  | data
  | code
  deriving DecidableEq

namespace ShredType

/-- `TryFromPrimitive`. -/
def ofByte (byte : ℕ) : Option ShredType :=
  if byte = 0b10100101 then some data else if byte = 0b01011010 then some code else none

end ShredType

structure ShredCommonHeader where
  signature : List UInt8
  shredType : ShredType
  slot : Slot
  index : ℕ
  version : ℕ
  fecSetIndex : ℕ
  deriving DecidableEq

structure DataShredHeader where
  parentOffset : ℕ
  flags : ℕ
  size : ℕ
  deriving DecidableEq, Inhabited

structure CodingShredHeader where
  numDataShreds : ℕ
  numCodingShreds : ℕ
  position : ℕ
  deriving DecidableEq, Inhabited

structure Shred where
  commonHeader : ShredCommonHeader
  dataHeader : DataShredHeader
  codingHeader : CodingShredHeader
  payload : List UInt8
  deriving DecidableEq

inductive ShredError where
  | invalidShredType
  | serialize
  | invalidParentOffset (slot : Slot) (parentOffset : ℕ)
  | invalidPayload
  deriving DecidableEq

variable (bytes : List UInt8)

def ShredCommonHeader.decode : Option ShredCommonHeader := do
  let (signature, bytes) ← take 64 bytes
  let (byte, bytes) ← uint 1 bytes
  let shredType ← ShredType.ofByte byte
  let (slot, bytes) ← uint 8 bytes
  let (index, bytes) ← uint 4 bytes
  let (version, bytes) ← uint 2 bytes
  let (fecSetIndex, _) ← uint 4 bytes
  return ⟨signature, shredType, slot, index, version, fecSetIndex⟩

def DataShredHeader.decode : Option DataShredHeader := do
  let (parentOffset, bytes) ← uint 2 bytes
  let (flags, bytes) ← uint 1 bytes
  let (size, _) ← uint 2 bytes
  return ⟨parentOffset, flags, size⟩

def CodingShredHeader.decode : Option CodingShredHeader := do
  let (numDataShreds, bytes) ← uint 2 bytes
  let (numCodingShreds, bytes) ← uint 2 bytes
  let (position, _) ← uint 2 bytes
  return ⟨numDataShreds, numCodingShreds, position⟩

namespace Shred

variable (shred : Shred)

def slot : Slot := shred.commonHeader.slot

def index : ℕ := shred.commonHeader.index

def shredType : ShredType := shred.commonHeader.shredType

def fecSetIndex : ℕ := shred.commonHeader.fecSetIndex

def parent (shred : Shred) : Except ShredError Slot :=
  match shred.shredType with
  | .data =>
    let parentOffset := shred.dataHeader.parentOffset
    if parentOffset = 0 ∧ shred.slot ≠ 0 then .error (.invalidParentOffset shred.slot 0)
    else
      match checkedSub shred.slot parentOffset with
      | some parent => .ok parent
      | none => .error (.invalidParentOffset shred.slot parentOffset)
  | .code => .error .invalidShredType

def firstCodingIndex : Option ℕ :=
  match shred.shredType with
  | .data => none
  | .code => checkedSub shred.index shred.codingHeader.position

/-- The block index within the erasure coding set. -/
def erasureBlockIndex : Option ℕ :=
  match shred.shredType with
  | .data => checkedSub shred.index shred.fecSetIndex
  | .code => do
    let _ ← checkedAdd 32 shred.fecSetIndex (← checkedSub shred.codingHeader.numDataShreds 1)
    let _ ← checkedAdd 32 (← shred.firstCodingIndex)
      (← checkedSub shred.codingHeader.numCodingShreds 1)
    let fecSetSize := shred.codingHeader.numDataShreds + shred.codingHeader.numCodingShreds
    let index := shred.codingHeader.position + shred.codingHeader.numDataShreds
    if index < fecSetSize then some index else none

def sanitize : Bool := shred.erasureBlockIndex.isSome &&
    match shred.shredType with
    | .data => shred.parent.isOk && decide (shred.dataHeader.size ≤ shred.payload.length)
    | .code => decide (shred.codingHeader.numCodingShreds ≤ 8 * maxDataShredsPerFecBlock)

section

variable (payload : List UInt8) (len : ℕ)

/-- `payload.resize(len, 0)`. -/
def resize : List UInt8 := payload.take len ++ replicate (len - payload.length) 0

/-- `deserialize_obj`: an object that is read from `size` bytes, or from what there is of them. -/
def deserializeObj {α : Type} (decode : List UInt8 → Option α) (index size : ℕ)
    (buf : List UInt8) : Except ShredError α :=
  match decode ((buf.take (index + size)).drop index) with
  | some obj => .ok obj
  | none => .error .serialize

/-- The header of a kind of shreds. -/
def decodeHeaders (shredType : ShredType) (payload : List UInt8) :
    Except ShredError (DataShredHeader × CodingShredHeader) :=
  match shredType with
  | .code => do
    let codingHeader ← deserializeObj CodingShredHeader.decode sizeOfCommonShredHeader
      sizeOfCodingShredHeader payload
    return (⟨0, 0, 0⟩, codingHeader)
  | .data => do
    let dataHeader ← deserializeObj DataShredHeader.decode sizeOfCommonShredHeader
      sizeOfDataShredHeader payload
    return (dataHeader, ⟨0, 0, 0⟩)

def newFromSerializedShred : Except ShredError Shred := do
  let commonHeader ← deserializeObj ShredCommonHeader.decode 0 sizeOfCommonShredHeader payload
  let payload := resize payload shredPayloadSize
  let (dataHeader, codingHeader) ← decodeHeaders commonHeader.shredType payload
  let shred : Shred := ⟨commonHeader, dataHeader, codingHeader, payload⟩
  if shred.sanitize then .ok shred else .error .invalidPayload

/-- The signature is one of the payload behind it. -/
def verify (verifySignature : List UInt8 → Pubkey → List UInt8 → Bool) (shred : Shred)
    (pubkey : Pubkey) : Bool :=
  verifySignature shred.commonHeader.signature pubkey (shred.payload.drop sizeOfSignature)

/-! ### Parsing again -/

lemma length_resize : (resize payload len).length = len := by
  rw [resize, length_append, length_take, length_replicate]
  omega

end

variable {payload : List UInt8} {shred : Shred}

lemma resize_of_length {len : ℕ} (h : payload.length = len) : resize payload len = payload := by
  rw [resize, ← h, take_length, Nat.sub_self, replicate_zero, append_nil]

lemma take_resize {len n : ℕ} (hn : n ≤ len) (h : n ≤ payload.length) :
    (resize payload len).take n = payload.take n := by
  rw [resize, take_append_of_le_length (by rw [length_take]; omega), take_take, Nat.min_eq_left hn]

lemma length_of_decode {bytes : List UInt8} {header : ShredCommonHeader}
    (h : ShredCommonHeader.decode bytes = some header) : 83 ≤ bytes.length := by
  simp only [ShredCommonHeader.decode, bind_eq_some, Prod.exists] at h
  obtain ⟨signature, b₁, h₁, byte, b₂, h₂, shredType, -, slot, b₃, h₃, index, b₄, h₄, version, b₅,
    h₅, fecSetIndex, b₆, h₆, -⟩ := h
  have hlen₁ := length_of_take h₁
  have hlen₂ := length_of_uint h₂
  have hlen₃ := length_of_uint h₃
  have hlen₄ := length_of_uint h₄
  have hlen₅ := length_of_uint h₅
  have hlen₆ := length_of_uint h₆
  omega

lemma deserializeObj_eq_ok {α : Type} {decode : List UInt8 → Option α} {index size : ℕ}
    {buf : List UInt8} {obj : α} : deserializeObj decode index size buf = .ok obj ↔
      decode ((buf.take (index + size)).drop index) = some obj := by
  rw [deserializeObj]
  split
  next h => rw [h, Except.ok.injEq, Option.some.injEq]
  next h => exact ⟨fun h' ↦ (by cases h'), fun h' ↦ (by rw [h] at h'; cases h')⟩

lemma newFromSerializedShred_eq_ok : newFromSerializedShred payload = .ok shred ↔
      ShredCommonHeader.decode (payload.take 83) = some shred.commonHeader ∧
        shred.payload = resize payload shredPayloadSize ∧
        decodeHeaders shred.shredType shred.payload =
          .ok (shred.dataHeader, shred.codingHeader) ∧ shred.sanitize = true := by
  rw [newFromSerializedShred, Codec.bind_eq_ok]
  constructor
  · rintro ⟨commonHeader, hcommon, h⟩
    obtain ⟨⟨dataHeader, codingHeader⟩, hheaders, h⟩ := Codec.bind_eq_ok.mp h
    simp only at h
    split_ifs at h with hsane
    cases h
    exact ⟨deserializeObj_eq_ok.mp hcommon, rfl, hheaders, hsane⟩
  rintro ⟨hcommon, hpayload, hheaders, hsane⟩
  refine ⟨shred.commonHeader, deserializeObj_eq_ok.mpr hcommon, ?_⟩
  rw [hpayload] at hheaders
  refine Codec.bind_eq_ok.mpr ⟨_, hheaders, ?_⟩
  have hshred : shred = ⟨shred.commonHeader, shred.dataHeader, shred.codingHeader,
      resize payload shredPayloadSize⟩ := by rw [← hpayload]
  simp only
  rw [← hshred, if_pos hsane]

lemma length_payload (h : newFromSerializedShred payload = .ok shred) :
    shred.payload.length = shredPayloadSize := by
  rw [(newFromSerializedShred_eq_ok.mp h).2.1, length_resize]

/-- A parsed shred is parsed again from its payload. -/
theorem newFromSerializedShred_payload (h : newFromSerializedShred payload = .ok shred) :
    newFromSerializedShred shred.payload = .ok shred := by
  have hlen := length_payload h
  obtain ⟨hcommon, hpayload, hheaders, hsane⟩ := newFromSerializedShred_eq_ok.mp h
  refine newFromSerializedShred_eq_ok.mpr ⟨?_, (resize_of_length hlen).symm, hheaders, hsane⟩
  -- the common header stands within the bytes that were there before the padding
  have hbytes : 83 ≤ payload.length := by
    have hle := length_of_decode hcommon
    rw [length_take] at hle
    omega
  rw [hpayload, take_resize (by decide) hbytes]
  exact hcommon

end Shred

end Renec
