import Mathlib

/-!
# Basic types of the SDK

Slots, epochs and the other counters of the source are `u64`; they are natural numbers here, and
the arithmetic on them is the checked arithmetic of `Renec.Machine.Outcome`. Public keys and
hashes are 32 bytes, kept as 256-bit values: the derived order of a byte array is the
lexicographic one, which is the order of the big-endian value.
-/

namespace Renec

/-- `Slot`, a `u64`. -/
abbrev Slot := ℕ

/-- `Epoch`, a `u64`. -/
abbrev Epoch := ℕ

/-- `UnixTimestamp`, an `i64`. -/
abbrev UnixTimestamp := ℤ

/-- `u64::MAX`. -/
def u64Max : ℕ := 2 ^ 64 - 1

/-- The address of an account. -/
structure Pubkey where
  /-- The 32 bytes, most significant first. -/
  bits : BitVec 256
  deriving DecidableEq

/-- The hash of a block or of a ledger entry. -/
structure Hash where
  /-- The 32 bytes, most significant first. -/
  bits : BitVec 256
  deriving DecidableEq

instance : Inhabited Pubkey := ⟨⟨0⟩⟩

instance : Inhabited Hash := ⟨⟨0⟩⟩

/-- Addresses compare as their bytes do. -/
instance : LinearOrder Pubkey :=
  LinearOrder.lift' (fun key ↦ key.bits.toNat) fun a b h ↦ by
    cases a; cases b
    exact congrArg Pubkey.mk (BitVec.eq_of_toNat_eq h)

/-- Hashes compare as their bytes do. -/
instance : LinearOrder Hash :=
  LinearOrder.lift' (fun h ↦ h.bits.toNat) fun a b h ↦ by
    cases a; cases b
    exact congrArg Hash.mk (BitVec.eq_of_toNat_eq h)

end Renec
