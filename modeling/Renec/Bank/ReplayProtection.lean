import Renec.Bank.BlockhashQueue
import Renec.Bank.StatusCache

/-!
# Replay protection

A transaction is refused when the status cache knows its message hash under its recent blockhash
(`is_transaction_already_processed` of `runtime/src/bank.rs`), and when its blockhash is too old for
the blockhash queue.

`BankChain.Protects` relates the clocks: what the cache has forgotten lies 300 banks back, and what
the queue accepts is never more than 151 banks old.
-/

namespace Renec

open List BlockhashQueue StatusCache

variable {τ : Type}

/-- `Bank::is_transaction_already_processed`: a status for the message hash, under the recent
blockhash. -/
def isTransactionAlreadyProcessed (messageHash : List UInt8) (recentBlockhash : Hash)
    (statusCache : StatusCache τ) (ancestors : Finset ℕ) : Option Bool := do
  let status ← statusCache.getStatus messageHash recentBlockhash ancestors
  return status.isSome

/-- A transaction as the status cache knows it, with the slot it was committed in. -/
structure Committed where
  slot : ℕ
  recentBlockhash : Hash
  messageHash : List UInt8
  deriving DecidableEq

structure BankChain (τ : Type) where
  /-- The rooted banks, the last root first. -/
  rooted : List ℕ
  /-- The banks after them, in the order of the chain. -/
  pending : List ℕ
  /-- The last bank, its ancestors, and whether it has registered its blockhash. -/
  tip : ℕ
  ancestors : Finset ℕ
  hasRegistered : Bool
  /-- The blockhash queue of the last bank. -/
  queue : BlockhashQueue
  statusCache : StatusCache τ
  /-- All transactions and all blockhashes of the chain. -/
  committed : List Committed
  blockhashes : List Hash

inductive ChainOp (τ : Type) where
  | newFromParent (slot : ℕ)
  /-- The last tick of a bank. -/
  | registerHash (hash : Hash)
  | commit (recentBlockhash : Hash) (messageHash signature : List UInt8) (status : τ)
    (draw draw' : ℕ)
  | root

namespace BankChain

/-- The bank of slot 0, with the genesis hash in its queue. -/
def genesis (hash : Hash) : BankChain τ where
  rooted := []
  pending := [0]
  tip := 0
  ancestors := {0}
  hasRegistered := false
  queue := (new maxRecentBlockhashes).genesisHash hash
  statusCache := .new
  committed := []
  blockhashes := [hash]

variable (w : BankChain τ)

def step : ChainOp τ → Option (BankChain τ)
  | .newFromParent slot => do
    guard (w.hasRegistered ∧ w.tip < slot)
    -- the parents of a bank go back to the last root
    return { w with
      pending := w.pending ++ [slot]
      tip := slot
      ancestors := (slot :: w.pending ++ w.rooted.head?.toList).toFinset
      hasRegistered := false }
  | .registerHash hash => do
    -- a hash is new to the chain: no bank has registered it and no transaction has named it
    guard (¬w.hasRegistered ∧ hash ∉ w.blockhashes ∧ ∀ tx ∈ w.committed, tx.recentBlockhash ≠ hash)
    let queue ← w.queue.registerHash hash
    return { w with queue := queue, hasRegistered := true, blockhashes := hash :: w.blockhashes }
  | .commit recentBlockhash messageHash signature status draw draw' => do
    guard (messageHash.length = 32 ∧ signature.length = 64)
    let cache ← w.statusCache.insert recentBlockhash messageHash w.tip status draw
    let cache ← cache.insert recentBlockhash signature w.tip status draw'
    return { w with
      statusCache := cache
      committed := ⟨w.tip, recentBlockhash, messageHash⟩ :: w.committed }
  | .root =>
    match w.pending with
    | [] => none
    | slot :: pending => some { w with
        rooted := slot :: w.rooted
        pending := pending
        statusCache := w.statusCache.addRoot slot }

/-- The chains that grow from a genesis bank. -/
def Reached : Prop :=
  ∃ (hash : Hash) (ops : List (ChainOp τ)), ops.foldlM step (genesis hash) = some w

/-! ### Two clocks -/

/-- The number of banks on the chain after a slot. -/
def banksAfter (slot : ℕ) : ℕ := ((w.rooted ++ w.pending).filter fun b ↦ decide (slot < b)).length

/-- The number of rooted banks after a slot. -/
def rootsAfter (slot : ℕ) : ℕ := (w.rooted.filter fun b ↦ decide (slot < b)).length

lemma rootsAfter_le_banksAfter (slot : ℕ) : w.rootsAfter slot ≤ w.banksAfter slot := by
  rw [rootsAfter, banksAfter, filter_append, length_append]
  exact Nat.le_add_right _ _

end BankChain

/-- The status cache has a key in a slot, where a lookup of the key goes. -/
def StatusCache.Holds (c : StatusCache τ) (h : Hash) (key : List UInt8) (slot : ℕ) : Prop :=
  ∃ i slice, c.offset h = some i ∧ keySlice key (min i (maxKeyIndex key)) = some slice ∧
    c.Stored h slice slot

variable {c : StatusCache τ} {slot draw : ℕ}

namespace StatusCache

variable {c' : StatusCache τ} {h h' : Hash} {key key' : List UInt8} {slot' : ℕ} {res : τ}

lemma holds_of_insert (hrun : c.insert h key slot res draw = some c') : c'.Holds h key slot := by
  obtain ⟨slice, hslice, hins⟩ := inserted_of_insert hrun
  refine ⟨_, slice, ?_, hslice, (hins.stored _ _ _).mpr (.inl ⟨rfl, rfl, rfl⟩)⟩
  rw [hins.offset, if_pos rfl, getD_freshOffset]

lemma Holds.insert (hc : c.Holds h' key' slot')
    (hrun : c.insert h key slot res draw = some c') : c'.Holds h' key' slot' := by
  obtain ⟨i, slice', hi, hslice', hstored⟩ := hc
  obtain ⟨slice, -, hins⟩ := inserted_of_insert hrun
  refine ⟨i, slice', ?_, hslice', (hins.stored _ _ _).mpr (.inr hstored)⟩
  rw [hins.offset]
  split_ifs with hh
  · rw [← hh, hi, Option.getD_some]
  · exact hi

lemma isSome_of_holds (hc : c.Holds h key slot) {ancestors : Finset ℕ}
    (hslot : slot ∈ ancestors ∨ slot ∈ c.roots) (hkey : cachedKeySize ≤ key.length) :
    isTransactionAlreadyProcessed key h c ancestors = some true := by
  obtain ⟨i, slice, hi, hslice, hstored⟩ := hc
  obtain ⟨status, hstatus⟩ := c.exists_getStatus (h := h) hkey ancestors
  have hsome := (isSome_of_getStatus hstatus).mpr ⟨i, slice, slot, hi, hslice, hstored, hslot⟩
  rw [isTransactionAlreadyProcessed, hstatus]
  exact congrArg some hsome

lemma Holds.purged {fork min : ℕ} (hc : c.Holds h key slot) (htop : c.UpToTop)
    (hpurge : Purged c fork min c') : c'.Holds h key slot ∨ slot ≤ min := by
  obtain ⟨i, slice, hi, hslice, hstored⟩ := hc
  obtain ⟨t, ht, hle⟩ := htop _ _ _ hstored
  rcases Nat.lt_or_ge min t with hmin | hmin
  · exact .inl ⟨i, slice, (hpurge.offset h i).mpr ⟨hi, t, ht, hmin⟩, hslice,
      (hpurge.stored _ _ _).mpr ⟨hstored, t, ht, hmin⟩⟩
  · exact .inr (hle.trans hmin)

end StatusCache

namespace BankChain

/-- **The invariant of a chain.** -/
structure Protects (w : BankChain τ) : Prop where
  le_tip : ∀ b ∈ w.rooted ++ w.pending, b ≤ w.tip
  tip_mem : w.tip ∈ w.rooted ++ w.pending
  /-- The cache counts only rooted banks, and the genesis bank. -/
  rooted_of_mem : ∀ r ∈ w.statusCache.roots, r = 0 ∨ r ∈ w.rooted
  /-- A root that the cache has dropped is far back. -/
  mem_of_rooted : ∀ s ∈ w.rooted, s ∈ w.statusCache.roots ∨ maxCacheEntries ≤ w.rootsAfter s
  ancestor_of_pending : ∀ s ∈ w.pending, s ∈ w.ancestors
  upToTop : w.statusCache.UpToTop
  mem_of_committed : ∀ tx ∈ w.committed, tx.slot ∈ w.rooted ++ w.pending
  length_messageHash : ∀ tx ∈ w.committed, tx.messageHash.length = 32
  /-- A transaction that the cache has dropped is far back. -/
  holds : ∀ tx ∈ w.committed, w.statusCache.Holds tx.recentBlockhash tx.messageHash tx.slot ∨
      maxCacheEntries ≤ w.rootsAfter tx.slot
  /-- The queue has grown by a hash for every bank after a transaction. -/
  height : ∀ tx ∈ w.committed, ∀ r, w.queue.ages.get? tx.recentBlockhash = some r →
    w.banksAfter tx.slot + r ≤ w.queue.hashHeight + if w.hasRegistered then 0 else 1
  /-- The cache has only blockhashes of transactions. -/
  committed_of_offset : ∀ h i, w.statusCache.offset h = some i →
    ∃ tx ∈ w.committed, tx.recentBlockhash = h

variable {w w' : BankChain τ} {hash : Hash}

lemma protects_genesis : (genesis hash : BankChain τ).Protects where
  le_tip := by
    intro b hb
    exact (mem_singleton.mp hb).le
  tip_mem := mem_singleton_self 0
  rooted_of_mem := by
    intro r hr
    exact .inl (Finset.mem_singleton.mp hr)
  mem_of_rooted := by
    intro s hs
    cases hs
  ancestor_of_pending := by
    intro s hs
    exact Finset.mem_singleton.mpr (mem_singleton.mp hs)
  upToTop := by
    rintro h slice slot ⟨entry, hnone, -⟩
    cases hnone
  mem_of_committed := by
    intro tx htx
    cases htx
  length_messageHash := by
    intro tx htx
    cases htx
  holds := by
    intro tx htx
    cases htx
  height := by
    intro tx htx
    cases htx
  committed_of_offset := by
    intro h i hnone
    cases hnone

lemma Protects.newFromParent (hw : w.Protects)
    (hstep : w.step (.newFromParent slot) = some w') : w'.Protects := by
  simp only [step, bind_eq_some, Option.guard_eq_some', pure_eq_some, exists_const] at hstep
  obtain ⟨⟨hregistered, htip⟩, rfl⟩ := hstep
  have hchain : ∀ b, b ∈ w.rooted ++ (w.pending ++ [slot]) ↔
      b ∈ w.rooted ++ w.pending ∨ b = slot := by
    intro b
    rw [← append_assoc, mem_append, mem_singleton]
  refine ⟨?_, ?_, hw.rooted_of_mem, hw.mem_of_rooted, ?_, hw.upToTop, ?_, hw.length_messageHash,
    hw.holds, ?_, hw.committed_of_offset⟩
  · intro b hb
    rcases (hchain b).mp hb with hb | rfl
    · exact (hw.le_tip b hb).trans htip.le
    · exact le_refl _
  · exact (hchain slot).mpr (.inr rfl)
  · intro s hs
    rw [mem_toFinset]
    rcases mem_append.mp hs with hs | hs
    · exact mem_append_left _ (mem_cons_of_mem _ hs)
    rw [mem_singleton.mp hs]
    exact mem_append_left _ mem_cons_self
  · intro tx htx
    exact (hchain _).mpr (.inl (hw.mem_of_committed tx htx))
  intro tx htx r hr
  have hold := hw.height tx htx r hr
  rw [if_pos hregistered] at hold
  have hafter : ((w.rooted ++ (w.pending ++ [slot])).filter
      fun b ↦ decide (tx.slot < b)).length ≤ w.banksAfter tx.slot + 1 := by
    rw [← append_assoc, filter_append, length_append]
    exact Nat.add_le_add_left (length_filter_le _ _) _
  show ((w.rooted ++ (w.pending ++ [slot])).filter fun b ↦ decide (tx.slot < b)).length + r ≤
    w.queue.hashHeight + 1
  omega

lemma Protects.registerHash (hw : w.Protects)
    (hstep : w.step (.registerHash hash) = some w') : w'.Protects := by
  simp only [step, bind_eq_some, Option.guard_eq_some', pure_eq_some, exists_const,
    registerHash_eq_some] at hstep
  obtain ⟨⟨hregistered, -, hfresh⟩, queue, ⟨-, rfl⟩, rfl⟩ := hstep
  refine ⟨hw.le_tip, hw.tip_mem, hw.rooted_of_mem, hw.mem_of_rooted, hw.ancestor_of_pending,
    hw.upToTop, hw.mem_of_committed, hw.length_messageHash, hw.holds, ?_, hw.committed_of_offset⟩
  intro tx htx r hr
  have hold := hw.height tx htx r (get?_ages_push (hfresh tx htx) hr)
  rw [if_neg hregistered] at hold
  exact hold

lemma Protects.commit {recentBlockhash : Hash} {messageHash signature : List UInt8} {status : τ}
    {draw' : ℕ} (hw : w.Protects)
    (hstep : w.step (.commit recentBlockhash messageHash signature status draw draw') = some w') :
    w'.Protects := by
  simp only [step, bind_eq_some, Option.guard_eq_some', pure_eq_some, exists_const] at hstep
  obtain ⟨⟨hlength, -⟩, cache₁, hmessage, cache₂, hsignature, rfl⟩ := hstep
  obtain ⟨slice₁, -, hins₁⟩ := inserted_of_insert hmessage
  obtain ⟨slice₂, -, hins₂⟩ := inserted_of_insert hsignature
  have hroots : cache₂.roots = w.statusCache.roots := hins₂.roots.trans hins₁.roots
  have hzero : w.banksAfter w.tip = 0 := by
    rw [banksAfter, length_eq_zero_iff, filter_eq_nil_iff]
    intro b hb hlt
    exact absurd (of_decide_eq_true hlt) (Nat.not_lt_of_le (hw.le_tip b hb))
  refine ⟨hw.le_tip, hw.tip_mem, ?_, ?_, hw.ancestor_of_pending,
    (hw.upToTop.inserted hins₁).inserted hins₂, ?_, ?_, ?_, ?_, ?_⟩
  · rw [hroots]
    exact hw.rooted_of_mem
  · rw [hroots]
    exact hw.mem_of_rooted
  · exact forall_mem_cons.mpr ⟨hw.tip_mem, hw.mem_of_committed⟩
  · exact forall_mem_cons.mpr ⟨hlength, hw.length_messageHash⟩
  · refine forall_mem_cons.mpr ⟨?_, fun tx htx ↦ (hw.holds tx htx).imp_left fun hold ↦ ?_⟩
    · exact .inl ((holds_of_insert hmessage).insert hsignature)
    · exact (hold.insert hmessage).insert hsignature
  · refine forall_mem_cons.mpr ⟨fun r hr ↦ ?_, hw.height⟩
    have hle := w.queue.le_hashHeight _ r hr
    show w.banksAfter w.tip + r ≤ w.queue.hashHeight + _
    rw [hzero]
    omega
  intro h i hi
  by_cases hh : h = recentBlockhash
  · exact ⟨_, mem_cons_self, hh.symm⟩
  rw [hins₂.offset, if_neg hh, hins₁.offset, if_neg hh] at hi
  obtain ⟨tx, htx, heq⟩ := hw.committed_of_offset h i hi
  exact ⟨tx, mem_cons_of_mem _ htx, heq⟩

lemma Protects.le_rootsAfter (hw : w.Protects) {fork min s : ℕ}
    (hpurge : StatusCache.Purged w.statusCache fork min c) (hs : s ≤ min) :
    maxCacheEntries ≤ ((fork :: w.rooted).filter fun b ↦ decide (s < b)).length := by
  have hcard : maxCacheEntries ≤ ((insert fork w.statusCache.roots).erase min).card := by
    rw [Finset.card_erase_of_mem hpurge.mem]
    exact Nat.le_sub_one_of_lt hpurge.full
  have hsubset : (insert fork w.statusCache.roots).erase min ⊆
      ((fork :: w.rooted).filter fun b ↦ decide (s < b)).toFinset := by
    intro r hr
    obtain ⟨hne, hr⟩ := Finset.mem_erase.mp hr
    have hlt : s < r := hs.trans_lt (lt_of_le_of_ne (hpurge.least r hr) hne.symm)
    rw [mem_toFinset, mem_filter]
    refine ⟨?_, decide_eq_true hlt⟩
    rcases Finset.mem_insert.mp hr with rfl | hr
    · exact mem_cons_self
    · exact mem_cons_of_mem _ ((hw.rooted_of_mem r hr).resolve_left (Nat.ne_zero_of_lt hlt))
  exact hcard.trans ((Finset.card_le_card hsubset).trans (toFinset_card_le _))

lemma Protects.addRoot (hw : w.Protects) (fork : ℕ) :
    (∀ r ∈ (w.statusCache.addRoot fork).roots, r = fork ∨ r ∈ w.statusCache.roots) ∧
    (∀ s, s = fork ∨ s ∈ w.statusCache.roots → s ∈ (w.statusCache.addRoot fork).roots ∨
      maxCacheEntries ≤ ((fork :: w.rooted).filter fun b ↦ decide (s < b)).length) ∧
    (w.statusCache.addRoot fork).UpToTop ∧
    (∀ h key s, w.statusCache.Holds h key s → (w.statusCache.addRoot fork).Holds h key s ∨
      maxCacheEntries ≤ ((fork :: w.rooted).filter fun b ↦ decide (s < b)).length) ∧
    ∀ h i, (w.statusCache.addRoot fork).offset h = some i → w.statusCache.offset h = some i := by
  rcases w.statusCache.addRoot_cases fork with ⟨-, heq⟩ | ⟨min, hpurge⟩
  · rw [heq]
    exact ⟨fun r hr ↦ Finset.mem_insert.mp hr, fun s hs ↦ .inl (Finset.mem_insert.mpr hs),
      hw.upToTop, fun h key s hold ↦ .inl hold, fun h i hi ↦ hi⟩
  refine ⟨fun r hr ↦ ?_, fun s hs ↦ ?_, hw.upToTop.purged hpurge, fun h key s hold ↦ ?_,
    fun h i hi ↦ ((hpurge.offset h i).mp hi).1⟩
  · rw [hpurge.roots] at hr
    exact Finset.mem_insert.mp (Finset.mem_of_mem_erase hr)
  · by_cases hmin : s = min
    · exact .inr (hw.le_rootsAfter hpurge hmin.le)
    rw [hpurge.roots]
    exact .inl (Finset.mem_erase.mpr ⟨hmin, Finset.mem_insert.mpr hs⟩)
  · exact (hold.purged hw.upToTop hpurge).imp_right (hw.le_rootsAfter hpurge)

lemma step_root (hstep : w.step .root = some w') : ∃ slot pending, w.pending = slot :: pending ∧
    w' = { w with
      rooted := slot :: w.rooted
      pending := pending
      statusCache := w.statusCache.addRoot slot } := by
  rw [step] at hstep
  split at hstep
  · cases hstep
  next slot pending hpending => exact ⟨slot, pending, hpending, (Option.some.inj hstep).symm⟩

lemma Protects.root (hw : w.Protects) (hstep : w.step .root = some w') : w'.Protects := by
  obtain ⟨slot, pending, hpending, rfl⟩ := step_root hstep
  obtain ⟨hroots, hkept, htop, hholds, hoffset⟩ := hw.addRoot slot
  have hchain : ∀ b, b ∈ slot :: w.rooted ++ pending ↔ b ∈ w.rooted ++ w.pending := by
    intro b
    simp only [hpending, cons_append, mem_cons, mem_append]
    exact or_left_comm
  have hmono : ∀ s, maxCacheEntries ≤ w.rootsAfter s →
      maxCacheEntries ≤ ((slot :: w.rooted).filter fun b ↦ decide (s < b)).length := by
    intro s hs
    exact hs.trans ((sublist_cons_self slot w.rooted).filter _).length_le
  refine ⟨fun b hb ↦ hw.le_tip b ((hchain b).mp hb), (hchain _).mpr hw.tip_mem, ?_, ?_, ?_, htop,
    fun tx htx ↦ (hchain _).mpr (hw.mem_of_committed tx htx), hw.length_messageHash, ?_, ?_, ?_⟩
  · intro r hr
    rcases hroots r hr with rfl | hr
    · exact .inr mem_cons_self
    · exact (hw.rooted_of_mem r hr).imp_right (mem_cons_of_mem _)
  · intro s hs
    rcases mem_cons.mp hs with rfl | hs
    · exact hkept s (.inl rfl)
    rcases hw.mem_of_rooted s hs with hmem | hafter
    · exact hkept s (.inr hmem)
    · exact .inr (hmono s hafter)
  · intro s hs
    refine hw.ancestor_of_pending s ?_
    rw [hpending]
    exact mem_cons_of_mem _ hs
  · intro tx htx
    rcases hw.holds tx htx with hold | hafter
    · exact hholds _ _ _ hold
    · exact .inr (hmono _ hafter)
  · intro tx htx r hr
    have hsame : ((slot :: w.rooted ++ pending).filter fun b ↦ decide (tx.slot < b)).length =
        w.banksAfter tx.slot := by
      rw [banksAfter, hpending]
      exact (perm_middle.symm.filter _).length_eq
    show ((slot :: w.rooted ++ pending).filter fun b ↦ decide (tx.slot < b)).length + r ≤ _
    rw [hsame]
    exact hw.height tx htx r hr
  intro h i hi
  exact hw.committed_of_offset h i (hoffset h i hi)

lemma protects_step {op : ChainOp τ} (hw : w.Protects) (hstep : w.step op = some w') :
    w'.Protects := by
  cases op with
  | newFromParent slot => exact hw.newFromParent hstep
  | registerHash hash => exact hw.registerHash hstep
  | commit => exact hw.commit hstep
  | root => exact hw.root hstep

lemma protects_of_reached (hw : w.Reached) : w.Protects := by
  obtain ⟨hash, ops, hops⟩ := hw
  exact foldlM_some_induction (fun _ _ _ _ hw hstep ↦ protects_step hw hstep) hops protects_genesis

lemma Protects.rootsAfter_lt (hw : w.Protects) {tx : Committed} (htx : tx ∈ w.committed)
    (hage : w.queue.checkHashAge tx.recentBlockhash maxProcessingAge = some true) :
    w.rootsAfter tx.slot < maxCacheEntries := by
  obtain ⟨r, hr, hle⟩ := checkHashAge_eq_true.mp hage
  have hheight := hw.height tx htx r hr
  have hroots := w.rootsAfter_le_banksAfter tx.slot
  have hages : maxProcessingAge + 1 < maxCacheEntries := by decide
  split_ifs at hheight <;> omega

/-- **Replay protection has no window.** On a chain of any length, with roots at any lag, a
transaction of the chain whose blockhash the last bank still accepts is found in the status cache;
and no blockhash that this bank accepts is dropped from the cache when another bank is rooted. -/
theorem replay_protected (hw : w.Reached) :
    (∀ tx ∈ w.committed, w.queue.checkHashAge tx.recentBlockhash maxProcessingAge = some true →
      isTransactionAlreadyProcessed tx.messageHash tx.recentBlockhash w.statusCache w.ancestors =
        some true) ∧
    ∀ h w', w.queue.checkHashAge h maxProcessingAge = some true → w.step .root = some w' →
      w'.statusCache.offset h = w.statusCache.offset h := by
  have hw := protects_of_reached hw
  constructor
  · intro tx htx hage
    have hnear := hw.rootsAfter_lt htx hage
    have hold := (hw.holds tx htx).resolve_right (Nat.not_le_of_lt hnear)
    refine isSome_of_holds hold ?_ ?_
    · rcases mem_append.mp (hw.mem_of_committed tx htx) with hroot | hpending
      · exact .inr ((hw.mem_of_rooted _ hroot).resolve_right (Nat.not_le_of_lt hnear))
      · exact .inl (hw.ancestor_of_pending _ hpending)
    rw [hw.length_messageHash tx htx]
    decide
  intro h w' hage hstep
  have hw' := hw.root hstep
  obtain ⟨slot, pending, hpending, rfl⟩ := step_root hstep
  obtain ⟨-, -, -, -, hoffset⟩ := hw.addRoot slot
  cases hi : w.statusCache.offset h with
  | none =>
    refine Option.eq_none_iff_forall_ne_some.mpr fun i hsome ↦ ?_
    rw [hoffset h i hsome] at hi
    cases hi
  | some i =>
    obtain ⟨tx, htx, rfl⟩ := hw.committed_of_offset h i hi
    have hnear := hw'.rootsAfter_lt htx hage
    obtain ⟨j, -, hj, -⟩ := (hw'.holds tx htx).resolve_right (Nat.not_le_of_lt hnear)
    exact hj.trans ((hoffset _ j hj).symm.trans hi)

/-- A transaction of the genesis bank is still found from the next bank, after both are rooted. -/
theorem replay_protected_two : ∃ w : BankChain Unit,
    [.commit default (replicate 32 0) (replicate 64 0) () 5 0, .registerHash ⟨1⟩,
      .newFromParent 3, .root, .root].foldlM step (genesis default) = some w ∧
    isTransactionAlreadyProcessed (replicate 32 0) default w.statusCache w.ancestors =
      some true := by
  have hrun : ((([.commit default (replicate 32 0) (replicate 64 0) () 5 0,
      .registerHash ⟨1⟩, .newFromParent 3, .root, .root] : List (ChainOp Unit)).foldlM step
      (genesis default)).any fun w ↦ decide (w.committed = [⟨0, default, replicate 32 0⟩] ∧
        w.queue.checkHashAge default maxProcessingAge = some true)) = true := by decide +kernel
  obtain ⟨w, hw, hfacts⟩ := (Option.any_eq_true _ _).mp hrun
  obtain ⟨hcommitted, hage⟩ := of_decide_eq_true hfacts
  refine ⟨w, hw, (replay_protected ⟨_, _, hw⟩).1 ⟨0, default, replicate 32 0⟩ ?_ hage⟩
  rw [hcommitted]
  exact mem_singleton_self _

end BankChain

end Renec
