import Renec.Bank.RentDistribution
import Renec.Collections.Pointwise

/-!
# Hard forks

Operators register slots for a hard fork, and the number of the forks goes into the hash of a bank
(`sdk/src/hard_forks.rs`). As slots are skipped, a fork is not bound to the bank of its slot: it
counts for the first bank from there on, on every chain (`hard_forks_hashed_once`).
-/

namespace Renec

open List Bincode Pointwise

/-- The slots, each with the number of forks registered for it. -/
structure HardForks where
  hardForks : List (Slot × ℕ)

namespace HardForks

def register (f : HardForks) (newSlot : Slot) : HardForks :=
  let forks := match f.hardForks.findIdx? fun e ↦ e.1 = newSlot with
    | some i => f.hardForks.modify i fun e ↦ (newSlot, saturatingAdd 64 e.2 1)
    | none => f.hardForks ++ [(newSlot, 1)]
  ⟨forks.insertionSort fun a b ↦ toLex a ≤ toLex b⟩

def hashData (forkCount : ℕ) : Option (List UInt8) :=
  if 0 < forkCount then some (leBytes 8 forkCount) else none

/-- The data that is included in the hash of the bank at `slot`. -/
def getHashData (f : HardForks) (slot parentSlot : Slot) : Option (Option (List UInt8)) := do
  let forkCount ← (f.hardForks.map fun e ↦
    if parentSlot < e.1 ∧ e.1 ≤ slot then e.2 else 0).foldlM (checkedAdd 64) 0
  return hashData forkCount

def registerAll (slots : List Slot) : HardForks := slots.foldl register ⟨[]⟩

/-- The forks are those registered, in any order. -/
def Counts (f : HardForks) (slots : List Slot) : Prop :=
  ∀ p : Slot → Prop, [DecidablePred p] →
    (f.hardForks.map fun e ↦ if p e.1 then e.2 else 0).sum = slots.countP fun s ↦ p s

variable {f : HardForks} {slots : List Slot}

lemma Counts.register (h : f.Counts slots) (hlen : slots.length + 1 < 2 ^ 64) (newSlot : Slot) :
    (f.register newSlot).Counts (slots ++ [newSlot]) := by
  intro p hp
  rw [HardForks.register, ((perm_insertionSort _ _).map _).sum_eq, countP_append, ← h p]
  split
  · rename_i i hfind
    obtain ⟨hi, hslot, -⟩ := findIdx?_eq_some_iff_getElem.mp hfind
    obtain ⟨⟨s, count⟩, he⟩ : ∃ e, f.hardForks[i] = e := ⟨_, rfl⟩
    obtain rfl : s = newSlot := by simpa [he] using hslot
    have hcount : count ≤ slots.length := by
      have hsum := h fun _ ↦ True
      simp only [if_true, decide_true, countP_true] at hsum
      exact hsum ▸ List.single_le_sum (by simp) _ (mem_map.mpr ⟨_, he ▸ getElem_mem hi, rfl⟩)
    have hset := sum_map_set (fun e ↦ if p e.1 then e.2 else 0)
      (he ▸ getElem?_eq_getElem hi) (s, count + 1)
    rw [modify_eq_set_getElem?, getElem?_eq_getElem hi, he]
    simp only [saturatingAdd, Option.map_eq_map, Option.map_some, Option.getD_some]
    rw [Nat.min_eq_left (by omega), countP_singleton]
    by_cases hs : p s <;> simp [hs] at hset ⊢ <;> omega
  · simp [countP_singleton]

lemma counts_registerAll (hlen : slots.length < 2 ^ 64) : (registerAll slots).Counts slots := by
  induction slots using reverseRecOn with
  | nil => exact fun p _ ↦ rfl
  | append_singleton slots s ih =>
    rw [length_append, length_singleton] at hlen
    rw [registerAll, foldl_append]
    exact (ih (by omega)).register hlen s

lemma Counts.getHashData (h : f.Counts slots) (hlen : slots.length < 2 ^ 64)
    (slot parent : Slot) : f.getHashData slot parent =
      some (hashData (slots.countP fun s ↦ parent < s ∧ s ≤ slot)) := by
  have hle := countP_le_length (p := fun s ↦ decide (parent < s ∧ s ≤ slot)) (l := slots)
  have hcount := h fun s ↦ parent < s ∧ s ≤ slot
  rw [HardForks.getHashData,
    (StakedVoteAccount.foldlM_checkedAdd (by decide)).mpr ⟨by omega, rfl⟩, hcount, Nat.zero_add]
  rfl

lemma hashData_inj {a b : ℕ} (ha : a < 2 ^ 64) (hb : b < 2 ^ 64) (h : hashData a = hashData b) :
    a = b := by
  unfold hashData at h
  split_ifs at h with hpos hpos'
  · have heq := congrArg littleEndian (Option.some_inj.mp h)
    rw [littleEndian_leBytes, littleEndian_leBytes] at heq
    omega
  · omega

lemma countP_zip_of_chain {first : ℕ} {blocks : List ℕ}
    (hchain : (first :: blocks).Pairwise (· < ·)) (s : ℕ) :
    (((first :: blocks).zip blocks).countP fun b ↦ b.1 < s ∧ s ≤ b.2) =
      if first < s ∧ s ≤ blocks.getLastD first then 1 else 0 := by
  induction blocks generalizing first with
  | nil => exact (if_neg (by simp)).symm
  | cons block blocks ih =>
    rw [pairwise_cons] at hchain
    have hlast : block ≤ blocks.getLastD block := by
      rcases blocks.eq_nil_or_concat' with rfl | ⟨_, last, rfl⟩
      · exact le_rfl
      rw [getLastD_concat]
      exact ((pairwise_cons.mp hchain.2).1 last (by simp)).le
    have hfirst := hchain.1 block mem_cons_self
    rw [zip_cons_cons, countP_cons, ih hchain.2, getLastD_cons]
    simp only [decide_eq_true_eq]
    split_ifs <;> omega

/-- **A hard fork goes into one hash of every chain.** Whatever slots are registered, in any order,
the data of a bank is the number of forks after its parent and up to it; and one more fork changes
the data of exactly one bank of a chain that has passed it, whatever slots were skipped. -/
theorem hard_forks_hashed_once {s : Slot} (hlen : (slots ++ [s]).length < 2 ^ 64) {first : Slot}
    {blocks : List Slot} (hchain : (first :: blocks).Pairwise (· < ·)) :
    (∀ slot parent, (registerAll slots).getHashData slot parent =
      some (hashData (slots.countP fun s ↦ parent < s ∧ s ≤ slot))) ∧
    (((first :: blocks).zip blocks).countP fun b ↦
        (registerAll (slots ++ [s])).getHashData b.2 b.1 ≠
          (registerAll slots).getHashData b.2 b.1) =
      if first < s ∧ s ≤ blocks.getLastD first then 1 else 0 := by
  have hlen' : slots.length < 2 ^ 64 := by
    rw [length_append, length_singleton] at hlen
    omega
  refine ⟨(counts_registerAll hlen').getHashData hlen', ?_⟩
  rw [← countP_zip_of_chain hchain s]
  refine countP_congr fun b _ ↦ ?_
  rw [(counts_registerAll hlen).getHashData hlen, (counts_registerAll hlen').getHashData hlen']
  have hle := countP_le_length (p := fun s ↦ decide (b.1 < s ∧ s ≤ b.2)) (l := slots ++ [s])
  rw [countP_append, countP_singleton] at hle ⊢
  simp only [decide_eq_true_eq, ne_eq, Option.some_inj] at hle ⊢
  by_cases hs : b.1 < s ∧ s ≤ b.2
  · rw [if_pos hs] at hle ⊢
    refine iff_of_true (fun heq ↦ ?_) hs
    exact absurd (hashData_inj (by omega) (by omega) heq) (Nat.succ_ne_self _)
  · simp [hs]

/-- One more fork at a slot that has one, on a chain that skips it. -/
theorem hard_forks_hashed_once_skipped :
    (registerAll [3, 7]).getHashData 9 2 = some (some [2, 0, 0, 0, 0, 0, 0, 0]) ∧
      ([(0, 2), (2, 5), (5, 9)].countP fun b ↦ (registerAll [3, 7, 3]).getHashData b.2 b.1 ≠
        (registerAll [3, 7]).getHashData b.2 b.1) = 1 := by
  obtain ⟨hdata, honce⟩ := @hard_forks_hashed_once [3, 7] 3 (by decide) 0 [2, 5, 9] (by decide)
  exact ⟨(hdata 9 2).trans (by decide), honce⟩

end HardForks

end Renec
