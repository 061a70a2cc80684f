import Renec.Sdk.Nonce
import Renec.Sdk.ShortVec

/-!
# Versioned messages on the wire

The bytes of a message (`sdk/program/src/message/versions`).
-/

namespace Renec

open Codec Except UInt8 Equiv

/-! ### Bytes -/

namespace Bincode

lemma littleEndian_cons (b : UInt8) (bytes : List UInt8) :
    littleEndian (b :: bytes) = b.toNat + 256 * littleEndian bytes := rfl

lemma leBytes_littleEndian (bytes : List UInt8) :
    leBytes bytes.length (littleEndian bytes) = bytes := by
  induction bytes with
  | nil => rfl
  | cons b bytes ih =>
    have hlt := b.toNat_lt
    have hmod : (b.toNat + 256 * littleEndian bytes) % 256 = b.toNat := by omega
    have hdiv : (b.toNat + 256 * littleEndian bytes) / 256 = littleEndian bytes := by omega
    have hbyte : ofNat (b.toNat + 256 * littleEndian bytes) = b := by
      refine UInt8.toNat_inj.mp ?_
      rw [toNat_ofNat', hmod]
    rw [List.length_cons, littleEndian_cons, leBytes, hdiv, ih, hbyte]

lemma littleEndian_lt (bytes : List UInt8) : littleEndian bytes < 256 ^ bytes.length := by
  induction bytes with
  | nil => exact Nat.one_pos
  | cons b bytes ih =>
    have hlt := b.toNat_lt
    rw [littleEndian_cons, List.length_cons, pow_succ']
    omega

/-- 32 bytes are a 256-bit value, most significant first. -/
def bitsEquiv : { bytes : List UInt8 // bytes.length = 32 } ≃ BitVec 256 where
  toFun bytes := BitVec.ofNat 256 (littleEndian bytes.1.reverse)
  invFun bits := ⟨beBytes bits, length_beBytes bits⟩
  left_inv bytes := by
    obtain ⟨bytes, hlength⟩ := bytes
    have hrev : bytes.reverse.length = 32 := by rw [List.length_reverse, hlength]
    have hlt := littleEndian_lt bytes.reverse
    rw [hrev] at hlt
    refine Subtype.ext ?_
    show (leBytes 32 (littleEndian bytes.reverse % 2 ^ 256)).reverse = bytes
    rw [Nat.mod_eq_of_lt (lt_of_lt_of_eq hlt (by norm_num)), ← hrev, leBytes_littleEndian,
      List.reverse_reverse]
  right_inv := ofNat_beBytes

end Bincode

/-- One byte. -/
def u8Codec : Codec UInt8 SerdeError UInt8 := .symbol .unexpectedEof

def pubkeyCodec : Codec UInt8 SerdeError Pubkey := (Codec.block .unexpectedEof 32).map
    (Bincode.bitsEquiv.trans ⟨Pubkey.mk, Pubkey.bits, fun _ ↦ rfl, fun _ ↦ rfl⟩)

def hashCodec : Codec UInt8 SerdeError Hash := (Codec.block .unexpectedEof 32).map
    (Bincode.bitsEquiv.trans ⟨Hash.mk, Hash.bits, fun _ ↦ rfl, fun _ ↦ rfl⟩)

lemma u8Codec_exact : u8Codec.Exact := symbol_exact _

lemma pubkeyCodec_exact : pubkeyCodec.Exact := (block_exact _ _).map _

lemma hashCodec_exact : hashCodec.Exact := (block_exact _ _).map _

/-! ### Messages -/

namespace Wire

structure MessageHeader where
  numRequiredSignatures : UInt8
  numReadonlySignedAccounts : UInt8
  numReadonlyUnsignedAccounts : UInt8
  deriving DecidableEq

structure CompiledInstruction where
  programIdIndex : UInt8
  accounts : List UInt8
  data : List UInt8
  deriving DecidableEq

/-- `legacy::Message`. -/
structure LegacyMessage where
  header : MessageHeader
  accountKeys : List Pubkey
  recentBlockhash : Hash
  instructions : List CompiledInstruction
  deriving DecidableEq

structure MessageAddressTableLookup where
  accountKey : Pubkey
  writableIndexes : List UInt8
  readonlyIndexes : List UInt8
  deriving DecidableEq

/-- `v0::Message`. -/
structure V0Message where
  header : MessageHeader
  accountKeys : List Pubkey
  recentBlockhash : Hash
  instructions : List CompiledInstruction
  addressTableLookups : List MessageAddressTableLookup
  deriving DecidableEq

inductive VersionedMessage where
  | legacy (message : LegacyMessage)
  | v0 (message : V0Message)
  deriving DecidableEq

/-- `MESSAGE_VERSION_PREFIX`. -/
def messageVersionPrefix : UInt8 := 0x80

/-! ### Derived codecs -/

def messageHeader : Codec UInt8 SerdeError MessageHeader :=
  (u8Codec.pair (u8Codec.pair u8Codec)).map
    ⟨fun p ↦ ⟨p.1, p.2.1, p.2.2⟩, fun h ↦ (h.1, h.2, h.3), fun _ ↦ rfl, fun _ ↦ rfl⟩

def compiledInstruction : Codec UInt8 SerdeError CompiledInstruction :=
  (u8Codec.pair ((shortVec u8Codec).pair (shortVec u8Codec))).map
    ⟨fun p ↦ ⟨p.1, p.2.1, p.2.2⟩, fun i ↦ (i.1, i.2, i.3), fun _ ↦ rfl, fun _ ↦ rfl⟩

def legacyMessage : Codec UInt8 SerdeError LegacyMessage :=
  (messageHeader.pair ((shortVec pubkeyCodec).pair
    (hashCodec.pair (shortVec compiledInstruction)))).map
    ⟨fun p ↦ ⟨p.1, p.2.1, p.2.2.1, p.2.2.2⟩, fun m ↦ (m.1, m.2, m.3, m.4), fun _ ↦ rfl, fun _ ↦ rfl⟩

def messageAddressTableLookup : Codec UInt8 SerdeError MessageAddressTableLookup :=
  (pubkeyCodec.pair ((shortVec u8Codec).pair (shortVec u8Codec))).map
    ⟨fun p ↦ ⟨p.1, p.2.1, p.2.2⟩, fun l ↦ (l.1, l.2, l.3), fun _ ↦ rfl, fun _ ↦ rfl⟩

def v0Message : Codec UInt8 SerdeError V0Message :=
  (messageHeader.pair ((shortVec pubkeyCodec).pair (hashCodec.pair
    ((shortVec compiledInstruction).pair (shortVec messageAddressTableLookup))))).map
    ⟨fun p ↦ ⟨p.1, p.2.1, p.2.2.1, p.2.2.2.1, p.2.2.2.2⟩, fun m ↦ (m.1, m.2, m.3, m.4, m.5),
      fun _ ↦ rfl, fun _ ↦ rfl⟩

lemma messageHeader_exact : messageHeader.Exact :=
  (u8Codec_exact.pair (u8Codec_exact.pair u8Codec_exact)).map _

lemma compiledInstruction_exact : compiledInstruction.Exact :=
  (u8Codec_exact.pair ((shortVec_exact u8Codec_exact).pair (shortVec_exact u8Codec_exact))).map _

lemma legacyMessage_exact : legacyMessage.Exact :=
  (messageHeader_exact.pair ((shortVec_exact pubkeyCodec_exact).pair
    (hashCodec_exact.pair (shortVec_exact compiledInstruction_exact)))).map _

lemma messageAddressTableLookup_exact : messageAddressTableLookup.Exact :=
  (pubkeyCodec_exact.pair
    ((shortVec_exact u8Codec_exact).pair (shortVec_exact u8Codec_exact))).map _

lemma v0Message_exact : v0Message.Exact :=
  (messageHeader_exact.pair ((shortVec_exact pubkeyCodec_exact).pair (hashCodec_exact.pair
    ((shortVec_exact compiledInstruction_exact).pair
      (shortVec_exact messageAddressTableLookup_exact))))).map _

/-- The remaining fields of a legacy message after the first byte. -/
structure RemainingLegacyMessage where
  numReadonlySignedAccounts : UInt8
  numReadonlyUnsignedAccounts : UInt8
  accountKeys : List Pubkey
  recentBlockhash : Hash
  instructions : List CompiledInstruction
  deriving DecidableEq

def remainingLegacyMessage : Codec UInt8 SerdeError RemainingLegacyMessage :=
  (u8Codec.pair (u8Codec.pair ((shortVec pubkeyCodec).pair
    (hashCodec.pair (shortVec compiledInstruction))))).map
    ⟨fun p ↦ ⟨p.1, p.2.1, p.2.2.1, p.2.2.2.1, p.2.2.2.2⟩, fun m ↦ (m.1, m.2, m.3, m.4, m.5),
      fun _ ↦ rfl, fun _ ↦ rfl⟩

/-! ### Versioned messages -/

/-- `v0::Message::serialize`. -/
def V0Message.serialize (message : V0Message) : Except SerdeError (List UInt8) :=
  (u8Codec.pair v0Message).encode (messageVersionPrefix, message)

inductive MessagePrefix where
  | legacy (byte : UInt8)
  | versioned (version : UInt8)

/-- `PrefixVisitor::visit_u8`. -/
def MessagePrefix.visitU8 (byte : UInt8) : MessagePrefix :=
  if byte &&& messageVersionPrefix ≠ 0 then .versioned (byte &&& ~~~messageVersionPrefix)
  else .legacy byte

namespace VersionedMessage

def header : VersionedMessage → MessageHeader
  | legacy message => message.header
  | v0 message => message.header

def staticAccountKeys : VersionedMessage → List Pubkey
  | legacy message => message.accountKeys
  | v0 message => message.accountKeys

def serialize : VersionedMessage → Except SerdeError (List UInt8)
  | legacy message => legacyMessage.encode message
  | v0 message => do
    let version ← u8Codec.encode messageVersionPrefix
    let bytes ← v0Message.encode message
    return version ++ bytes

/-- `MessageVisitor::visit_seq`. -/
def deserialize (bytes : List UInt8) : Except SerdeError (VersionedMessage × List UInt8) := do
  let (byte, rest) ← u8Codec.decode bytes
  match MessagePrefix.visitU8 byte with
  | .legacy numRequiredSignatures =>
    let (message, rest) ← remainingLegacyMessage.decode rest
    return (.legacy ⟨⟨numRequiredSignatures, message.numReadonlySignedAccounts,
      message.numReadonlyUnsignedAccounts⟩, message.accountKeys, message.recentBlockhash,
      message.instructions⟩, rest)
  | .versioned version =>
    if version = 0 then
      let (message, rest) ← v0Message.decode rest
      return (.v0 message, rest)
    else .error (.invalidValue (.unsigned version.toNat) "supported versions: [0]")

/-! ### The two layouts -/

lemma and_versionBit : ∀ n < 256, (ofNat n &&& messageVersionPrefix = 0 ↔ n < 128) ∧
      (128 ≤ n → (ofNat n &&& ~~~messageVersionPrefix = 0 ↔ n = 128)) := by
  decide +kernel

variable {bytes : List UInt8} {byte : UInt8} {rest : List UInt8} {m : VersionedMessage}

lemma visitU8_of_lt (h : byte.toNat < 128) : MessagePrefix.visitU8 byte = .legacy byte := by
  have hzero := (and_versionBit byte.toNat byte.toNat_lt).1.mpr h
  rw [UInt8.ofNat_toNat] at hzero
  rw [MessagePrefix.visitU8, if_neg (not_not.mpr hzero)]

lemma visitU8_of_le (h : 128 ≤ byte.toNat) :
    ∃ version, MessagePrefix.visitU8 byte = .versioned version ∧
      (version = 0 ↔ byte = messageVersionPrefix) := by
  obtain ⟨hbit, hversion⟩ := and_versionBit byte.toNat byte.toNat_lt
  rw [UInt8.ofNat_toNat] at hbit hversion
  refine ⟨_, if_pos fun hzero ↦ absurd (hbit.mp hzero) (by omega), (hversion h).trans ?_⟩
  exact UInt8.toNat_inj (b := messageVersionPrefix)

lemma u8Codec_decode_cons_eq_ok {x : UInt8} :
    u8Codec.decode (byte :: bytes) = .ok (x, rest) ↔ x = byte ∧ rest = bytes := by
  show ok (byte, bytes) = .ok (x, rest) ↔ _
  rw [ok.injEq, Prod.mk.injEq, eq_comm, @eq_comm _ bytes]

lemma legacyMessage_decode_cons {m : LegacyMessage} :
    legacyMessage.decode (byte :: bytes) = .ok (m, rest) ↔ m.header.numRequiredSignatures = byte ∧
        remainingLegacyMessage.decode bytes = .ok (⟨m.header.numReadonlySignedAccounts,
          m.header.numReadonlyUnsignedAccounts, m.accountKeys, m.recentBlockhash,
          m.instructions⟩, rest) := by
  simp only [legacyMessage, remainingLegacyMessage, messageHeader, map_decode_eq_ok,
    pair_decode_eq_ok, coe_fn_symm_mk, u8Codec_decode_cons_eq_ok]
  constructor
  · rintro ⟨keys, ⟨_, ⟨hbyte, rfl⟩, counts, hsigned, hunsigned⟩, hkeys⟩
    exact ⟨hbyte, counts, hsigned, keys, hunsigned, hkeys⟩
  rintro ⟨hbyte, counts, hsigned, keys, hunsigned, hkeys⟩
  exact ⟨keys, ⟨_, ⟨hbyte, rfl⟩, counts, hsigned, hunsigned⟩, hkeys⟩

lemma deserialize_cons (byte : UInt8) (bytes : List UInt8) :
    deserialize (byte :: bytes) = match MessagePrefix.visitU8 byte with
      | .legacy numRequiredSignatures => do
        let (message, rest) ← remainingLegacyMessage.decode bytes
        return (.legacy ⟨⟨numRequiredSignatures, message.numReadonlySignedAccounts,
          message.numReadonlyUnsignedAccounts⟩, message.accountKeys, message.recentBlockhash,
          message.instructions⟩, rest)
      | .versioned version =>
        if version = 0 then do
          let (message, rest) ← v0Message.decode bytes
          return (.v0 message, rest)
        else .error (.invalidValue (.unsigned version.toNat) "supported versions: [0]") :=
  rfl

lemma deserialize_of_lt (h : byte.toNat < 128) : deserialize (byte :: bytes) = .ok (m, rest) ↔
      ∃ message, m = .legacy message ∧
        legacyMessage.decode (byte :: bytes) = .ok (message, rest) := by
  rw [deserialize_cons, visitU8_of_lt h]
  simp only [bind_eq_ok, legacyMessage_decode_cons, pure, Except.pure, ok.injEq, Prod.mk.injEq]
  constructor
  · rintro ⟨⟨message, rest'⟩, hmessage, rfl, rfl⟩
    exact ⟨_, rfl, rfl, hmessage⟩
  rintro ⟨message, rfl, rfl, hmessage⟩
  exact ⟨_, hmessage, rfl, rfl⟩

lemma deserialize_of_le (h : 128 ≤ byte.toNat) : deserialize (byte :: bytes) = .ok (m, rest) ↔
      byte = messageVersionPrefix ∧
        ∃ message, m = .v0 message ∧ v0Message.decode bytes = .ok (message, rest) := by
  obtain ⟨version, hvisit, hversion⟩ := visitU8_of_le h
  rw [deserialize_cons, hvisit, ← hversion]
  dsimp only
  by_cases hzero : version = 0
  · rw [if_pos hzero]
    simp only [bind_eq_ok, pure, Except.pure, ok.injEq, Prod.mk.injEq]
    constructor
    · rintro ⟨⟨message, rest'⟩, hmessage, rfl, rfl⟩
      exact ⟨hzero, message, rfl, hmessage⟩
    rintro ⟨-, message, rfl, hmessage⟩
    exact ⟨_, hmessage, rfl, rfl⟩
  rw [if_neg hzero]
  exact ⟨nofun, fun h ↦ absurd h.1 hzero⟩

/-! ### The codec -/

lemma serialize_v0_eq_ok {message : V0Message} : serialize (.v0 message) = .ok bytes ↔
      ∃ rest, v0Message.encode message = .ok rest ∧ bytes = messageVersionPrefix :: rest := by
  show (u8Codec.pair v0Message).encode (messageVersionPrefix, message) = _ ↔ _
  rw [pair_encode_eq_ok]
  constructor
  · rintro ⟨first, rest, hfirst, hrest, rfl⟩
    cases hfirst
    exact ⟨rest, hrest, rfl⟩
  rintro ⟨rest, hrest, rfl⟩
  exact ⟨_, rest, rfl, hrest, rfl⟩

lemma legacyMessage_encode_eq_cons {message : LegacyMessage}
    (h : legacyMessage.encode message = .ok bytes) :
    ∃ rest, bytes = message.header.numRequiredSignatures :: rest := by
  simp only [legacyMessage, map, messageHeader, pair_encode_eq_ok, coe_fn_symm_mk] at h
  obtain ⟨header, keys, ⟨first, others, hfirst, -, rfl⟩, -, rfl⟩ := h
  cases hfirst
  exact ⟨_, rfl⟩

/-- What was serialized is read back, if the first byte of a legacy message is not a version. -/
theorem deserialize_append (hm : m.header.numRequiredSignatures.toNat < 128)
    (h : serialize m = .ok bytes) (rest : List UInt8) :
    deserialize (bytes ++ rest) = .ok (m, rest) := by
  cases m with
  | legacy message =>
    have hdecode := legacyMessage_exact.roundTrips rest h
    obtain ⟨others, rfl⟩ := legacyMessage_encode_eq_cons h
    exact (deserialize_of_lt hm).mpr ⟨message, rfl, hdecode⟩
  | v0 message =>
    obtain ⟨others, hothers, rfl⟩ := serialize_v0_eq_ok.mp h
    exact (deserialize_of_le (by decide)).mpr
      ⟨rfl, message, rfl, v0Message_exact.roundTrips rest hothers⟩

/-- What is read is what would be serialized. -/
theorem serialize_of_deserialize (h : deserialize bytes = .ok (m, rest)) :
    ∃ taken, serialize m = .ok taken ∧ bytes = taken ++ rest := by
  cases bytes with
  | nil => cases h
  | cons byte bytes =>
    rcases Nat.lt_or_ge byte.toNat 128 with hlt | hle
    · obtain ⟨message, rfl, hdecode⟩ := (deserialize_of_lt hlt).mp h
      exact legacyMessage_exact.canonical hdecode
    obtain ⟨rfl, message, rfl, hdecode⟩ := (deserialize_of_le hle).mp h
    obtain ⟨taken, hencode, rfl⟩ := v0Message_exact.canonical hdecode
    exact ⟨_, serialize_v0_eq_ok.mpr ⟨taken, hencode, rfl⟩, rfl⟩

def keyBytes (key : Pubkey) : List UInt8 := Bincode.beBytes key.bits

lemma deserialize_layout (h : deserialize bytes = .ok (m, rest)) :
    ∃ version others, bytes = version ++ ([m.header.numRequiredSignatures,
        m.header.numReadonlySignedAccounts, m.header.numReadonlyUnsignedAccounts] ++
        (ShortU16.serialize m.staticAccountKeys.length ++
          m.staticAccountKeys.flatMap keyBytes ++ others)) ∧
      m.staticAccountKeys.length < 2 ^ 16 ∧
      (version = [] ∧ m.header.numRequiredSignatures.toNat < 128 ∨
        version = [messageVersionPrefix]) := by
  have hkeys : ∀ key, pubkeyCodec.encode key = .ok (keyBytes key) := fun _ ↦ rfl
  have hbyte : ∀ byte, u8Codec.encode byte = .ok [byte] := fun _ ↦ rfl
  cases bytes with
  | nil => cases h
  | cons byte bytes =>
    rcases Nat.lt_or_ge byte.toNat 128 with hlt | hle
    · obtain ⟨message, rfl, hdecode⟩ := (deserialize_of_lt hlt).mp h
      obtain ⟨taken, hencode, heq⟩ := legacyMessage_exact.canonical hdecode
      simp only [legacyMessage, map, messageHeader, pair_encode_eq_ok, hbyte,
        coe_fn_symm_mk, ok.injEq, shortVec_encode_eq_ok hkeys] at hencode
      obtain ⟨_, _, ⟨_, _, rfl, ⟨_, _, rfl, rfl, rfl⟩, rfl⟩, ⟨_, others, ⟨hlen, rfl⟩, -, rfl⟩,
        rfl⟩ := hencode
      have hfirst : byte = message.header.numRequiredSignatures := (List.cons.inj heq).1
      refine ⟨[], others ++ rest, ?_, hlen, .inl ⟨rfl, hfirst ▸ hlt⟩⟩
      rw [heq]
      simp only [List.append_assoc, List.cons_append, List.nil_append]
      rfl
    obtain ⟨rfl, message, rfl, hdecode⟩ := (deserialize_of_le hle).mp h
    obtain ⟨taken, hencode, rfl⟩ := v0Message_exact.canonical hdecode
    simp only [v0Message, map, messageHeader, pair_encode_eq_ok, hbyte,
      coe_fn_symm_mk, ok.injEq, shortVec_encode_eq_ok hkeys] at hencode
    obtain ⟨_, _, ⟨_, _, rfl, ⟨_, _, rfl, rfl, rfl⟩, rfl⟩, ⟨_, others, ⟨hlen, rfl⟩, -, rfl⟩,
      rfl⟩ := hencode
    refine ⟨[messageVersionPrefix], others ++ rest, ?_, hlen, .inr rfl⟩
    simp only [List.append_assoc, List.cons_append, List.nil_append]
    rfl

/-- The vectors of a message have a length that can be written. -/
def Fits (m : VersionedMessage) : Prop :=
  match m with
  | legacy message => message.accountKeys.length < 65536 ∧ message.instructions.length < 65536 ∧
      ∀ i ∈ message.instructions, i.accounts.length < 65536 ∧ i.data.length < 65536
  | v0 message => message.accountKeys.length < 65536 ∧ message.instructions.length < 65536 ∧
      (∀ i ∈ message.instructions, i.accounts.length < 65536 ∧ i.data.length < 65536) ∧
      message.addressTableLookups.length < 65536 ∧ ∀ l ∈ message.addressTableLookups,
        l.writableIndexes.length < 65536 ∧ l.readonlyIndexes.length < 65536

lemma exists_encode_shortVec {α : Type} {c : Codec UInt8 SerdeError α} {l : List α}
    (hlen : l.length < 65536) (h : ∀ a ∈ l, ∃ bytes, c.encode a = .ok bytes) :
    ∃ bytes, (shortVec c).encode l = .ok bytes := by
  obtain ⟨others, hothers⟩ := exists_encodeAll h
  exact ⟨_, counted_encode_eq_ok.mpr
    ⟨_, others, shortLen_encode_eq_ok.mpr ⟨hlen, rfl⟩, hothers, rfl⟩⟩

lemma exists_encode_bytes {l : List UInt8} (hlen : l.length < 65536) :
    ∃ bytes, (shortVec u8Codec).encode l = .ok bytes :=
  exists_encode_shortVec hlen fun a _ ↦ ⟨[a], rfl⟩

lemma exists_encode_keys {l : List Pubkey} (hlen : l.length < 65536) :
    ∃ bytes, (shortVec pubkeyCodec).encode l = .ok bytes :=
  exists_encode_shortVec hlen fun _ _ ↦ ⟨_, rfl⟩

lemma exists_encode_pair {α β : Type} {c : Codec UInt8 SerdeError α} {d : Codec UInt8 SerdeError β}
    {p : α × β} (hc : ∃ bytes, c.encode p.1 = .ok bytes) (hd : ∃ bytes, d.encode p.2 = .ok bytes) :
    ∃ bytes, (pair c d).encode p = .ok bytes := by
  obtain ⟨first, hfirst⟩ := hc
  obtain ⟨second, hsecond⟩ := hd
  exact ⟨_, pair_encode_eq_ok.mpr ⟨first, second, hfirst, hsecond, rfl⟩⟩

lemma exists_encode_instructions {l : List CompiledInstruction} (hlen : l.length < 65536)
    (h : ∀ i ∈ l, i.accounts.length < 65536 ∧ i.data.length < 65536) :
    ∃ bytes, (shortVec compiledInstruction).encode l = .ok bytes :=
  exists_encode_shortVec hlen fun i hi ↦ exists_encode_pair ⟨_, rfl⟩
    (exists_encode_pair (exists_encode_bytes (h i hi).1) (exists_encode_bytes (h i hi).2))

lemma exists_encode_lookups {l : List MessageAddressTableLookup} (hlen : l.length < 65536)
    (h : ∀ t ∈ l, t.writableIndexes.length < 65536 ∧ t.readonlyIndexes.length < 65536) :
    ∃ bytes, (shortVec messageAddressTableLookup).encode l = .ok bytes :=
  exists_encode_shortVec hlen fun t ht ↦ exists_encode_pair ⟨_, rfl⟩
    (exists_encode_pair (exists_encode_bytes (h t ht).1) (exists_encode_bytes (h t ht).2))

lemma exists_serialize (h : m.Fits) : ∃ bytes, serialize m = .ok bytes := by
  cases m with
  | legacy message =>
    obtain ⟨hkeys, hlen, hinstructions⟩ := h
    exact exists_encode_pair ⟨_, rfl⟩ (exists_encode_pair (exists_encode_keys hkeys)
      (exists_encode_pair ⟨_, rfl⟩ (exists_encode_instructions hlen hinstructions)))
  | v0 message =>
    obtain ⟨hkeys, hlen, hinstructions, hlookups, hindexes⟩ := h
    have hrest := exists_encode_pair (p := (_, _)) (exists_encode_instructions hlen hinstructions)
      (exists_encode_lookups hlookups hindexes)
    exact exists_encode_pair (p := (_, _)) ⟨_, rfl⟩ (exists_encode_pair (p := (_, _)) ⟨_, rfl⟩
      (exists_encode_pair (p := (_, _)) (exists_encode_keys hkeys)
        (exists_encode_pair (p := (_, _)) ⟨_, rfl⟩ hrest)))

/-- **The codec is a bijection on what it accepts.** A message with fewer than 128 required
signatures is read back from its bytes, which exist if its vectors are not too long. A legacy
message has its plain encoding. What is read completely is serialized to the bytes it was read from,
so each message has one encoding, and a legacy and a V0 message do not share theirs. -/
theorem codec_bijective :
    (∀ m : VersionedMessage, m.header.numRequiredSignatures.toNat < 128 →
      (m.Fits → ∃ bytes, m.serialize = .ok bytes) ∧
        ∀ bytes, m.serialize = .ok bytes → deserialize bytes = .ok (m, [])) ∧
    (∀ message : LegacyMessage, serialize (.legacy message) = legacyMessage.encode message) ∧
    (∀ message : V0Message, serialize (.v0 message) = message.serialize) ∧
    (∀ bytes m, deserialize bytes = .ok (m, []) → m.serialize = .ok bytes) ∧
    (∀ bytes bytes' m, deserialize bytes = .ok (m, []) → deserialize bytes' = .ok (m, []) →
      bytes = bytes') ∧
    ∀ (message : LegacyMessage) (message' : V0Message) (bytes : List UInt8),
      message.header.numRequiredSignatures.toNat < 128 →
      serialize (.legacy message) = .ok bytes → serialize (.v0 message') ≠ .ok bytes := by
  have hcanonical : ∀ bytes m, deserialize bytes = .ok (m, []) → m.serialize = .ok bytes := by
    intro bytes m h
    obtain ⟨taken, hserialize, rfl⟩ := serialize_of_deserialize h
    rw [List.append_nil]
    exact hserialize
  refine ⟨fun m hm ↦ ⟨exists_serialize, fun bytes h ↦ ?_⟩, fun _ ↦ rfl, fun _ ↦ rfl, hcanonical,
    fun bytes bytes' m h h' ↦ ?_, fun message message' bytes hlt h h' ↦ ?_⟩
  · have hdecode := deserialize_append hm h []
    rw [List.append_nil] at hdecode
    exact hdecode
  · have heq := (hcanonical bytes m h).symm.trans (hcanonical bytes' m h')
    exact ok.inj heq
  obtain ⟨rest, rfl⟩ := legacyMessage_encode_eq_cons h
  obtain ⟨rest', -, heq⟩ := serialize_v0_eq_ok.mp h'
  rw [(List.cons.inj heq).1] at hlt
  exact absurd hlt (by decide)

end VersionedMessage

end Wire

end Renec
