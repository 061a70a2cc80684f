import Renec.Sdk.Account
import Renec.Sdk.Message

/-!
# Nonce accounts

A nonce account (`sdk/program/src/nonce`, `sdk/src/nonce_account.rs`) holds a durable nonce: a hash
that a transaction may name in place of a recent blockhash.
-/

namespace Renec

open Option Bincode
open List hiding pure_def take take_append

namespace Bincode

/-- The `n` little-endian bytes of a number. -/
def leBytes : ℕ → ℕ → List UInt8
  | 0, _ => []
  | n + 1, x => UInt8.ofNat x :: leBytes n (x / 256)

/-- 32 bytes, most significant first. -/
def beBytes (bits : BitVec 256) : List UInt8 := (leBytes 32 bits.toNat).reverse

def hash (bytes : List UInt8) : Option (Hash × List UInt8) :=
  (take 32 bytes).map fun p ↦ (⟨BitVec.ofNat 256 (littleEndian p.1.reverse)⟩, p.2)

@[simp] lemma length_leBytes (n x : ℕ) : (leBytes n x).length = n := by
  induction n generalizing x with
  | zero => rfl
  | succ n ih => rw [leBytes, length_cons, ih]

@[simp] lemma length_beBytes (bits : BitVec 256) : (beBytes bits).length = 32 := by
  rw [beBytes, length_reverse, length_leBytes]

lemma littleEndian_leBytes (n x : ℕ) : littleEndian (leBytes n x) = x % 256 ^ n := by
  induction n generalizing x with
  | zero => rw [pow_zero, Nat.mod_one, leBytes, littleEndian, foldr_nil]
  | succ n ih =>
    have hcons : littleEndian (leBytes (n + 1) x) =
        x % 256 + 256 * littleEndian (leBytes n (x / 256)) := by
      rw [leBytes, littleEndian, foldr_cons, UInt8.toNat_ofNat', ← littleEndian]
    rw [hcons, ih, pow_succ', Nat.mod_mul]

variable {n : ℕ} {bytes rest : List UInt8} {x : ℕ}

lemma take_append {n : ℕ} (h : bytes.length = n) :
    take n (bytes ++ rest) = some (bytes, rest) := by
  rw [take, if_pos (by rw [length_append]; omega), splitAt_eq]
  simp [← h]

lemma uint_append (h : x < 256 ^ n) (rest : List UInt8) :
    uint n (leBytes n x ++ rest) = some (x, rest) := by
  rw [uint, take_append (length_leBytes n x), map_some, littleEndian_leBytes, Nat.mod_eq_of_lt h]

lemma length_of_take {bytes taken rest : List UInt8} (h : take n bytes = some (taken, rest)) :
    bytes.length = n + rest.length := by
  rw [take] at h
  split_ifs at h with hlen
  rw [splitAt_eq, some.injEq, Prod.mk.injEq] at h
  rw [← h.2, length_drop]
  omega

lemma length_of_map_take {α : Type} {f : List UInt8 × List UInt8 → α × List UInt8} {a : α}
    (h : (take n bytes).map f = some (a, rest)) (hf : ∀ p, (f p).2 = p.2) :
    bytes.length = n + rest.length := by
  obtain ⟨p, htake, heq⟩ := map_eq_some_iff.mp h
  obtain rfl : p.2 = rest := (hf p).symm.trans (congrArg Prod.snd heq)
  exact length_of_take htake

lemma length_of_uint (h : uint n bytes = some (x, rest)) : bytes.length = n + rest.length :=
  length_of_map_take h fun _ ↦ rfl

lemma length_of_pubkey {key : Pubkey} (h : pubkey bytes = some (key, rest)) :
    bytes.length = 32 + rest.length :=
  length_of_map_take h fun _ ↦ rfl

lemma length_of_hash {hash' : Hash} (h : hash bytes = some (hash', rest)) :
    bytes.length = 32 + rest.length :=
  length_of_map_take h fun _ ↦ rfl

lemma littleEndian_zeros {bytes : List UInt8} (h : ∀ b ∈ bytes, b = 0) :
    littleEndian bytes = 0 := by
  induction bytes with
  | nil => rfl
  | cons b bytes ih =>
    obtain ⟨rfl, hbytes⟩ := forall_mem_cons.mp h
    show (0 : UInt8).toNat + 256 * littleEndian bytes = 0
    rw [ih hbytes]
    rfl

lemma uint_zeros (hzeros : bytes.all (· == 0) = true) (h : uint n bytes = some (x, rest)) :
    x = 0 ∧ rest.all (· == 0) = true := by
  obtain ⟨⟨taken, rest'⟩, htake, heq⟩ := map_eq_some_iff.mp h
  cases heq
  rw [take] at htake
  split_ifs at htake
  rw [splitAt_eq, some.injEq, Prod.mk.injEq] at htake
  obtain ⟨rfl, rfl⟩ := htake
  simp only [List.all_eq_true, beq_iff_eq] at hzeros ⊢
  exact ⟨littleEndian_zeros fun b hb ↦ hzeros b (mem_of_mem_take hb),
    fun b hb ↦ hzeros b (mem_of_mem_drop hb)⟩

lemma ofNat_beBytes (bits : BitVec 256) :
    BitVec.ofNat 256 (littleEndian (beBytes bits).reverse) = bits := by
  rw [beBytes, reverse_reverse, littleEndian_leBytes]
  refine BitVec.eq_of_toNat_eq ?_
  rw [BitVec.toNat_ofNat, Nat.mod_eq_of_lt (lt_of_lt_of_eq bits.isLt (by norm_num)),
    Nat.mod_eq_of_lt bits.isLt]

lemma pubkey_append (key : Pubkey) (rest : List UInt8) :
    pubkey (beBytes key.bits ++ rest) = some (key, rest) := by
  rw [pubkey, take_append (length_beBytes _), map_some, ofNat_beBytes]

lemma hash_append (h : Hash) (rest : List UInt8) :
    hash (beBytes h.bits ++ rest) = some (h, rest) := by
  rw [hash, take_append (length_beBytes _), map_some, ofNat_beBytes]

end Bincode

/-! ### State -/

/-- `nonce::state::Data`. -/
structure NonceData where
  authority : Pubkey
  /-- Durable nonce value derived from a valid previous blockhash. -/
  durableNonce : Hash
  lamportsPerSignature : UInt64
  deriving DecidableEq

/-- `nonce::State`. -/
inductive NonceState where
  | uninitialized
  | initialized (data : NonceData)
  deriving DecidableEq

/-- `nonce::state::Versions`. The current variants have durable nonce and blockhash domains
separated. -/
inductive NonceVersions where
  | legacy (state : NonceState)
  | current (state : NonceState)
  deriving DecidableEq

/-- `DurableNonce::from_blockhash`; `domainHash` is the hash of a blockhash in the domain of durable
nonces. -/
def durableNonceFromBlockhash (domainHash : Hash → Hash) (blockhash : Hash)
    (separateDomains : Bool) : Hash :=
  if separateDomains then domainHash blockhash else blockhash

variable {versions : NonceVersions}

namespace NonceVersions

def new (state : NonceState) (separateDomains : Bool) : NonceVersions :=
  if separateDomains then current state else legacy state

def state : NonceVersions → NonceState
  | legacy state => state
  | current state => state

def separateDomains : NonceVersions → Bool
  | legacy _ => false
  | current _ => true

/-- The data of the nonce if it is the recent blockhash of a transaction. Legacy durable nonces are
invalid once the domains are separate. -/
def verifyRecentBlockhash (versions : NonceVersions) (recentBlockhash : Hash)
    (separateDomains : Bool) : Option NonceData :=
  match versions with
  | legacy state => if separateDomains then none else verify state
  | current state => verify state
where
  verify : NonceState → Option NonceData
    | .uninitialized => none
    | .initialized data => if recentBlockhash = data.durableNonce then some data else none

/-- Upgrades legacy nonces out of chain blockhash domains. -/
def upgrade (domainHash : Hash → Hash) : NonceVersions → Option NonceVersions
  | legacy .uninitialized => none
  | legacy (.initialized data) =>
    some (current (.initialized { data with
      durableNonce := durableNonceFromBlockhash domainHash data.durableNonce true }))
  | current _ => none

/-! ### Account data -/

def encodeState : NonceState → List UInt8
  | .uninitialized => leBytes 4 0
  | .initialized data =>
    leBytes 4 1 ++ (beBytes data.authority.bits ++
      (beBytes data.durableNonce.bits ++ leBytes 8 data.lamportsPerSignature.toNat))

def encode : NonceVersions → List UInt8
  | legacy state => leBytes 4 0 ++ encodeState state
  | current state => leBytes 4 1 ++ encodeState state

def decodeState (bytes : List UInt8) : Option NonceState := do
  match ← uint 4 bytes with
  | (0, _) => return .uninitialized
  | (1, rest) =>
    let (authority, rest) ← pubkey rest
    let (durableNonce, rest) ← hash rest
    let (lamportsPerSignature, _) ← uint 8 rest
    return .initialized ⟨authority, durableNonce, UInt64.ofNat lamportsPerSignature⟩
  | _ => none

/-- `account.state()` for a nonce account. -/
def decode (data : List UInt8) : Option NonceVersions := do
  match ← uint 4 data with
  | (0, rest) => return legacy (← decodeState rest)
  | (1, rest) => return current (← decodeState rest)
  | _ => none

lemma decodeState_encodeState (state : NonceState) (rest : List UInt8) :
    decodeState (encodeState state ++ rest) = some state := by
  cases state with
  | uninitialized =>
    rw [decodeState, encodeState, uint_append (by norm_num)]
    rfl
  | initialized data =>
    have hfee : data.lamportsPerSignature.toNat < 256 ^ 8 :=
      lt_of_lt_of_eq data.lamportsPerSignature.toNat_lt (by norm_num)
    rw [decodeState, encodeState]
    simp only [append_assoc]
    rw [uint_append (by norm_num)]
    simp only [some_bind, pubkey_append, hash_append, uint_append hfee,
      UInt64.ofNat_toNat, pure_def]

/-- The round trip of a nonce state. -/
theorem decode_encode (versions : NonceVersions) (rest : List UInt8) :
    decode (versions.encode ++ rest) = some versions := by
  cases versions <;>
    rw [decode, encode, append_assoc, uint_append (by norm_num)] <;>
    simp [decodeState_encodeState]

lemma length_encode_new (data : NonceData) (separateDomains : Bool) :
    (new (.initialized data) separateDomains).encode.length = 80 := by
  cases separateDomains <;> simp [new, encode, encodeState]

lemma length_of_decode {bytes : List UInt8} {data : NonceData} (h : decode bytes = some versions)
    (hstate : versions.state = .initialized data) : 80 ≤ bytes.length := by
  have hinner : ∀ {rest : List UInt8}, decodeState rest = some (.initialized data) →
      76 ≤ rest.length := by
    intro rest hrest
    simp only [decodeState, bind_eq_some] at hrest
    obtain ⟨⟨tag, rest₁⟩, htag, hrest⟩ := hrest
    have hlen := length_of_uint htag
    split at hrest
    · cases hrest
    next heq =>
      cases heq
      simp only [bind_eq_some] at hrest
      obtain ⟨⟨authority, rest₂⟩, hauthority, ⟨nonce, rest₃⟩, hnonce, ⟨fee, rest₄⟩, hfee, -⟩ :=
        hrest
      dsimp only at hauthority hnonce hfee
      have hlen₂ := length_of_pubkey hauthority
      have hlen₃ := length_of_hash hnonce
      have hlen₄ := length_of_uint hfee
      omega
    · cases hrest
  simp only [decode, bind_eq_some] at h
  obtain ⟨⟨tag, rest⟩, htag, h⟩ := h
  have hlen := length_of_uint htag
  split at h
  case h_3 => cases h
  -- both versions hold a state in the same format
  all_goals
    obtain ⟨state, hdecode, hv⟩ := bind_eq_some_iff.mp h
    cases hv
    replace hstate : state = .initialized data := hstate
    subst hstate
    next heq =>
      cases heq
      have hrest := hinner hdecode
      omega

lemma not_initialized_of_zeros {bytes : List UInt8} (hzeros : bytes.all (· == 0) = true)
    (h : decode bytes = some versions) : versions.state = .uninitialized := by
  simp only [decode, bind_eq_some] at h
  obtain ⟨⟨tag, rest⟩, htag, h⟩ := h
  obtain ⟨rfl, hrest⟩ := uint_zeros hzeros htag
  obtain ⟨state, hstate, hv⟩ := bind_eq_some_iff.mp h
  cases hv
  simp only [decodeState, bind_eq_some] at hstate
  obtain ⟨⟨tag', rest'⟩, htag', hstate⟩ := hstate
  obtain ⟨rfl, -⟩ := uint_zeros hrest htag'
  exact (some.inj hstate).symm

end NonceVersions

/-- `account.set_state(versions)` for a nonce account. -/
def Account.setNonceState (account : Account) (versions : NonceVersions) :
    Except InstructionError Account :=
  if versions.encode.length ≤ account.data.length then
    .ok { account with data := versions.encode ++ account.data.drop versions.encode.length }
  else .error .accountDataTooSmall

variable {account : Account}

lemma Account.setNonceState_eq_ok {account' : Account}
    (h : account.setNonceState versions = .ok account') :
    NonceVersions.decode account'.data = some versions ∧
      account' = { account with data := account'.data } ∧
      account'.data.length = account.data.length := by
  rw [setNonceState] at h
  split_ifs at h with hlen
  cases h
  refine ⟨NonceVersions.decode_encode versions _, rfl, ?_⟩
  rw [length_append, length_drop]
  omega

/-- Checks if the recent blockhash of a transaction verifies, and returns nonce account data if
so. -/
def verifyNonceAccount (account : Account) (recentBlockhash : Hash) (separateDomains : Bool) :
    Option NonceData :=
  if account.owner = systemProgramId then do
    let versions ← NonceVersions.decode account.data
    versions.verifyRecentBlockhash recentBlockhash separateDomains
  else none

def lamportsPerSignatureOf (account : Account) : Option ℕ := do
  match (← NonceVersions.decode account.data).state with
  | .initialized data => return data.lamportsPerSignature.toNat
  | .uninitialized => none

lemma verifyNonceAccount_eq_none {hash : Hash} {separateDomains : Bool}
    (h : ∀ versions data, NonceVersions.decode account.data = some versions →
      versions.state = .initialized data → data.durableNonce ≠ hash) :
    verifyNonceAccount account hash separateDomains = none := by
  rw [verifyNonceAccount]
  split_ifs with howner
  · cases hdecode : NonceVersions.decode account.data with
    | none => rfl
    | some versions =>
      rw [some_bind]
      have hstate : ∀ state, versions.state = state →
          NonceVersions.verifyRecentBlockhash.verify hash state = none := by
        rintro (_ | data) hstate
        · rfl
        · exact if_neg (h versions data hdecode hstate).symm
      cases versions with
      | legacy state =>
        rw [NonceVersions.verifyRecentBlockhash]
        split_ifs
        · rfl
        · exact hstate state rfl
      | current state => exact hstate state rfl
  · rfl

end Renec
