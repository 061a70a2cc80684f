import Renec.LookupTable.Processor

/-!
# Lookup tables are stable

Two things hold along every chain of banks, whatever instructions are executed on a table.

* **Lookups are stable within a slot** (`lookups_stable`): a table is only ever appended to, a
  frozen table does not change, and every lookup in a slot resolves against what the table held when
  the slot began.
* **A closed table is not created again** (`closed_never_recreated`): it could be closed only after
  its deactivation slot had left the recent slots, and the slot its address is derived from is
  older.
-/

namespace Renec.LookupTable

open List Outcome LookupTableMeta SlotHashes AddressLookupTable Option Nat

variable {ctx : Context} {tableKey : Pubkey} {bank : Bank} {d : Slot}
  {table table' : TableAccount} {t t' : AddressLookupTable} {w : World}

/-- `create_program_address` has no collisions. -/
def Context.Injective (ctx : Context) : Prop :=
  ∀ {a a' : Pubkey} {s s' : Slot} {b b' : UInt8} {key : Pubkey},
    ctx.createProgramAddress a s b = .ok key → ctx.createProgramAddress a' s' b' = .ok key →
      a = a' ∧ s = s' ∧ b = b'

/-- The address is derived from this slot, if it is derived at all. -/
def DerivedFrom (ctx : Context) (tableKey : Pubkey) (d : Slot) : Prop :=
  ∀ {a : Pubkey} {s : Slot} {b : UInt8}, ctx.createProgramAddress a s b = .ok tableKey → s = d

/-! ### What an instruction can do -/

/-- The changes of a table whose address is derived from the slot `d`. -/
inductive Change (bank : Bank) (d : Slot) :
    Option AddressLookupTable → Option AddressLookupTable → Prop
  | create (authority : Pubkey) (recent : d ∈ bank.slotHashes.slots) :
    Change bank d none (some ⟨LookupTableMeta.new authority, []⟩)
  | extend (t : AddressLookupTable) (newAddresses : List Pubkey) (m : LookupTableMeta)
    (live : t.metadata.authority.isSome) (active : t.metadata.deactivationSlot = u64Max)
    (length_le : t.addresses.length + newAddresses.length ≤ 256)
    (extended : extendedMeta t bank.slot = .ok m) :
    Change bank d (some t) (some ⟨m, t.addresses ++ newAddresses⟩)
  | freeze (t : AddressLookupTable) (live : t.metadata.authority.isSome) :
    Change bank d (some t) (some { t with metadata := { t.metadata with authority := none } })
  | deactivate (t : AddressLookupTable) (live : t.metadata.authority.isSome)
    (active : t.metadata.deactivationSlot = u64Max) :
    Change bank d (some t)
      (some { t with metadata := { t.metadata with deactivationSlot := bank.slot } })
  | close (t : AddressLookupTable) (live : t.metadata.authority.isSome)
    (ended : t.metadata.status bank.slot bank.slotHashes = .deactivated) :
    Change bank d (some t) none

variable {authority : Party} {result : TableAccount × Party} {slot : Slot} {payer : Party}

lemma data_of_fund {n : ℕ} (h : fund ctx payer table n = .ok result) :
    result.1.data = table.data := by
  rw [fund] at h
  split_ifs at h
  · simp only [transfer, bind_eq_ok, pure_eq_ok, ok.injEq] at h
    obtain ⟨-, -, -, -, _, -, rfl⟩ := h
    rfl
  obtain rfl := ok.inj h
  rfl

lemma isSome_of_checkAuthority {u : Unit} (h : checkAuthority t authority = .ok u) :
    t.metadata.authority.isSome := by
  simp only [checkAuthority, bind_eq_ok, failIf_eq_ok] at h
  obtain ⟨-, hnone, -⟩ := h
  rwa [isNone_eq_false_iff] at hnone

lemma createLookupTable_eq_ok {key : Pubkey} {bump : UInt8}
    (h : createLookupTable ctx bank key table authority payer slot bump = .ok result) :
    table.data = none ∧ slot ∈ bank.slotHashes.slots ∧
      ctx.createProgramAddress authority.key slot bump = .ok key ∧
      result.1.data = some ⟨new authority.key, []⟩ := by
  simp only [createLookupTable, bind_eq_ok, failIf_eq_ok, pure_eq_ok, ok.injEq] at h
  obtain ⟨-, hdata, -, -, -, -, -, hrecent, derived, hderived, -, hkey, -, -, -, -, rfl⟩ := h
  have heq : key = derived := by simpa using hkey
  refine ⟨?_, ?_, heq ▸ hderived, rfl⟩
  · rwa [isSome_eq_false_iff, isNone_iff_eq_none] at hdata
  · exact mem_of_get_isSome (isNone_eq_false_iff.mp hrecent)

lemma extendLookupTable_change {newAddresses : List Pubkey}
    (h : extendLookupTable ctx bank table authority payer newAddresses = .ok result) :
    Change bank d table.data result.1.data := by
  simp only [extendLookupTable, bind_eq_ok, failIf_eq_ok, okOr_eq_ok] at h
  obtain ⟨-, -, -, -, -, -, t, hdata, _, hauthority, -, hactive, -, -, -, -, -, hlen,
    m, hmeta, _, -,
    hfund⟩ := h
  rw [data_of_fund hfund, hdata]
  have hle : t.addresses.length + newAddresses.length ≤ 256 := by
    have hle := of_decide_eq_false hlen
    rw [saturatingAdd, lookupTableMaxAddresses] at hle
    omega
  exact .extend t newAddresses m (isSome_of_checkAuthority hauthority) (by simpa using hactive) hle
    hmeta

lemma freezeLookupTable_change (h : freezeLookupTable table authority = .ok table') :
    Change bank d table.data table'.data := by
  simp only [freezeLookupTable, ownedTable, bind_eq_ok, failIf_eq_ok, okOr_eq_ok, pure_eq_ok,
    ok.injEq] at h
  obtain ⟨t, ⟨-, -, -, -, hdata⟩, _, hauthority, -, -, -, -, rfl⟩ := h
  rw [hdata]
  exact .freeze t (isSome_of_checkAuthority hauthority)

lemma deactivateLookupTable_change (h : deactivateLookupTable bank table authority = .ok table') :
    Change bank d table.data table'.data := by
  simp only [deactivateLookupTable, ownedTable, bind_eq_ok, failIf_eq_ok, okOr_eq_ok, pure_eq_ok,
    ok.injEq] at h
  obtain ⟨t, ⟨-, -, -, -, hdata⟩, _, hauthority, -, hactive, rfl⟩ := h
  rw [hdata]
  exact .deactivate t (isSome_of_checkAuthority hauthority) (by simpa using hactive)

lemma closeLookupTable_change {authority recipient : Party}
    (h : closeLookupTable bank tableKey table authority recipient = .ok result) :
    Change bank d table.data result.1.data ∧ result.1.data = none := by
  simp only [closeLookupTable, bind_eq_ok, failIf_eq_ok, okOr_eq_ok, pure_eq_ok, ok.injEq] at h
  obtain ⟨-, -, -, -, -, -, t, hdata, _, hauthority, -, hover, _, -, rfl⟩ := h
  rw [hdata]
  exact ⟨.close t (isSome_of_checkAuthority hauthority) (by simpa using hover), rfl⟩

/-- Inversion of a step: a new bank with the same table, or a change of the table in the same bank,
or nothing. -/
theorem step_cases (hd : DerivedFrom ctx tableKey d) (w : World) (op : Op) :
    step ctx tableKey w op = w ∨
      (op.isInstruction = false ∧ ∃ slot hash, ∃ h : w.bank.slot < slot,
        step ctx tableKey w op = { w with bank := w.bank.child slot hash h }) ∨
      (op.isInstruction = true ∧ (step ctx tableKey w op).bank = w.bank ∧
        Change w.bank d w.table.data (step ctx tableKey w op).table.data) := by
  have hsettle : ∀ result : Outcome InstructionError TableAccount,
      (∀ table', result = .ok table' → Change w.bank d w.table.data table'.data) →
      w.settle result = w ∨ (w.settle result).bank = w.bank ∧
        Change w.bank d w.table.data (w.settle result).table.data := by
    intro result hchange
    cases result with
    | ok table' => exact .inr ⟨rfl, hchange table' rfl⟩
    | err e | panic => exact .inl rfl
  cases op with
  | newBank slot hash =>
    by_cases h : w.bank.slot < slot
    · exact .inr (.inl ⟨rfl, slot, hash, h, dif_pos h⟩)
    · exact .inl (dif_neg h)
  | create authority payer slot bump =>
    refine (hsettle _ fun table' h ↦ ?_).imp_right fun h ↦ .inr ⟨rfl, h⟩
    obtain ⟨result, hcreate, heq⟩ := bind_eq_ok.mp h
    obtain rfl := ok.inj heq
    obtain ⟨hdata, hrecent, hderived, hresult⟩ := createLookupTable_eq_ok hcreate
    rw [hdata, hresult]
    exact .create authority.key (hd hderived ▸ hrecent)
  | extend authority payer newAddresses =>
    refine (hsettle _ fun table' h ↦ ?_).imp_right fun h ↦ .inr ⟨rfl, h⟩
    obtain ⟨result, hextend, heq⟩ := bind_eq_ok.mp h
    obtain rfl := ok.inj heq
    exact extendLookupTable_change hextend
  | freeze authority =>
    exact (hsettle _ fun table' h ↦ freezeLookupTable_change h).imp_right fun h ↦ .inr ⟨rfl, h⟩
  | deactivate authority =>
    exact (hsettle _ fun table' h ↦ deactivateLookupTable_change h).imp_right fun h ↦ .inr ⟨rfl, h⟩
  | close authority recipient =>
    refine (hsettle _ fun table' h ↦ ?_).imp_right fun h ↦ .inr ⟨rfl, h⟩
    obtain ⟨result, hclose, heq⟩ := bind_eq_ok.mp h
    obtain rfl := ok.inj heq
    exact (closeLookupTable_change hclose).1

/-! ### The invariant -/

/-- What holds of a table whose address is derived from the slot `d`. -/
structure Valid (d : Slot) (bank : Bank) (t : AddressLookupTable) : Prop where
  length_le : t.addresses.length ≤ 256
  start_le : t.metadata.lastExtendedSlotStartIndex ≤ t.addresses.length
  extended_le : t.metadata.lastExtendedSlot ≤ bank.slot
  derived : d < bank.slot
  /-- The deactivation slot is current, recent, or older than everything recent. -/
  deactivated : t.metadata.deactivationSlot ≠ u64Max → d < t.metadata.deactivationSlot ∧
    t.metadata.deactivationSlot ≤ bank.slot ∧
    (t.metadata.deactivationSlot = bank.slot ∨ t.metadata.deactivationSlot ∈ bank.slotHashes.slots ∨
      ∀ y ∈ bank.slotHashes.slots, t.metadata.deactivationSlot < y)

/-- The slot `d` is older than everything recent. -/
def Gone (d : Slot) (bank : Bank) : Prop := d < bank.slot ∧ ∀ y ∈ bank.slotHashes.slots, d < y

variable {hash : Hash}

lemma Gone.child (h : Gone d bank) (hlt : bank.slot < slot) :
    Gone d (bank.child slot hash hlt) := by
  refine ⟨h.1.trans hlt, fun y hy ↦ ?_⟩
  rcases mem_of_mem_slots_add hy with rfl | hy
  · exact h.1
  · exact h.2 y hy

lemma Valid.child (h : Valid d bank t) (hlt : bank.slot < slot) :
    Valid d (bank.child slot hash hlt) t := by
  refine ⟨h.length_le, h.start_le, h.extended_le.trans hlt.le, h.derived.trans hlt, fun hne ↦ ?_⟩
  obtain ⟨hd, hle, hwhere⟩ := h.deactivated hne
  refine ⟨hd, hle.trans hlt.le, .inr ?_⟩
  rcases hle.eq_or_lt with heq | hbelow
  · exact mem_or_lt_of_mem (.inl heq)
  rcases hwhere with heq | hmem | hold
  · exact mem_or_lt_of_mem (.inl heq)
  · exact mem_or_lt_of_mem (.inr hmem)
  · exact .inr (Gone.child ⟨hbelow, hold⟩ hlt).2

/-- A table can be closed only when the slot of its address is gone. -/
theorem Valid.gone_of_close (h : Valid d bank t)
    (hover : t.metadata.status bank.slot bank.slotHashes = .deactivated) : Gone d bank := by
  obtain ⟨hne, hcurrent, hrecent⟩ := status_eq_deactivated.mp hover
  obtain ⟨hd, -, heq | hmem | hold⟩ := h.deactivated hne
  · exact absurd heq hcurrent
  · exact absurd hmem hrecent
  · exact ⟨h.derived, fun y hy ↦ hd.trans (hold y hy)⟩

variable {m : LookupTableMeta}

lemma extendedMeta_eq_ok (h : extendedMeta t slot = .ok m) :
    m.deactivationSlot = t.metadata.deactivationSlot ∧ m.lastExtendedSlot = slot ∧
      (t.metadata.lastExtendedSlot = slot ∧
          m.lastExtendedSlotStartIndex = t.metadata.lastExtendedSlotStartIndex ∨
        t.metadata.lastExtendedSlot ≠ slot ∧
          m.lastExtendedSlotStartIndex = t.addresses.length) := by
  rw [extendedMeta] at h
  split_ifs at h with hslot hlen
  · obtain rfl := ok.inj h
    exact ⟨rfl, rfl, .inr ⟨fun heq ↦ hslot heq.symm, rfl⟩⟩
  obtain rfl := ok.inj h
  rw [not_not] at hslot
  exact ⟨rfl, hslot.symm, .inl ⟨hslot.symm, rfl⟩⟩

lemma Valid.change {x : Option AddressLookupTable} (h : ∀ t ∈ x, Valid d bank t)
    (hchange : Change bank d x (some t')) : Valid d bank t' := by
  cases hchange with
  | create authority recent =>
    exact ⟨zero_le _, zero_le _, zero_le _, bank.recent d recent, fun hne ↦ absurd rfl hne⟩
  | extend t newAddresses m live active length_le extended =>
    have ht := h t rfl
    obtain ⟨hdeact, hslot, hstart⟩ := extendedMeta_eq_ok extended
    have hlen : (t.addresses ++ newAddresses).length =
        t.addresses.length + newAddresses.length := length_append
    refine ⟨hlen.trans_le length_le, ?_, hslot.le, ht.derived,
      fun hne ↦ absurd (hdeact.trans active) hne⟩
    show m.lastExtendedSlotStartIndex ≤ (t.addresses ++ newAddresses).length
    have := ht.start_le
    omega
  | freeze t live =>
    have ht := h t rfl
    exact ⟨ht.length_le, ht.start_le, ht.extended_le, ht.derived, ht.deactivated⟩
  | deactivate t live active =>
    have ht := h t rfl
    exact ⟨ht.length_le, ht.start_le, ht.extended_le, ht.derived,
      fun _ ↦ ⟨ht.derived, le_refl _, .inl rfl⟩⟩

/-- The invariant of a chain. -/
def Inv (d : Slot) (w : World) : Prop := ∀ t ∈ w.table.data, Valid d w.bank t

section

variable (hd : DerivedFrom ctx tableKey d)

include hd

lemma Inv.step (h : Inv d w) (op : Op) : Inv d (step ctx tableKey w op) := by
  rcases step_cases hd w op with heq | ⟨-, slot, hash, hlt, heq⟩ | ⟨-, hbank, hchange⟩
  · rw [heq]
    exact h
  · rw [heq]
    exact fun t ht ↦ (h t ht).child hlt
  intro t ht
  rw [mem_def] at ht
  rw [ht] at hchange
  rw [hbank]
  exact Valid.change h hchange

lemma Inv.run (h : Inv d w) (ops : List Op) : Inv d (run ctx tableKey w ops) := by
  induction ops generalizing w with
  | nil => exact h
  | cons op ops ih => exact ih (h.step hd op)

lemma inv_run (h : w.table.data = none) (ops : List Op) : Inv d (run ctx tableKey w ops) :=
  Inv.run hd (fun t ht ↦ by rw [h] at ht; cases ht) ops

/-! ### Closed tables -/

lemma gone_step (h : w.table.data = none ∧ Gone d w.bank) (op : Op) :
    (step ctx tableKey w op).table.data = none ∧ Gone d (step ctx tableKey w op).bank := by
  rcases step_cases hd w op with heq | ⟨-, slot, hash, hlt, heq⟩ | ⟨-, hbank, hchange⟩
  · rw [heq]
    exact h
  · rw [heq]
    exact ⟨h.1, h.2.child hlt⟩
  rw [h.1] at hchange
  generalize (LookupTable.step ctx tableKey w op).table.data = x at hchange
  cases hchange with
  | create authority recent => exact absurd (h.2.2 d recent) (lt_irrefl d)

lemma gone_run (h : w.table.data = none ∧ Gone d w.bank) (ops : List Op) :
    (run ctx tableKey w ops).table.data = none ∧ Gone d (run ctx tableKey w ops).bank := by
  induction ops generalizing w with
  | nil => exact h
  | cons op ops ih => exact ih (gone_step hd h op)

end

/-- **A closed table is never created again.** After a table was closed, no table can be created
from the slot its address is derived from, at any address; nor can one be created at its address. -/
theorem closed_never_recreated (ctx : Context) (hinj : ctx.Injective) (tableKey : Pubkey)
    (authority : Pubkey) (derivationSlot : Slot) (bump : UInt8)
    (hkey : ctx.createProgramAddress authority derivationSlot bump = .ok tableKey) (init : World)
    (hinit : init.table.data = none) (ops : List Op) (closer recipient : Party)
    (closed : TableAccount × Party)
    (hclose : closeLookupTable (run ctx tableKey init ops).bank tableKey
      (run ctx tableKey init ops).table closer recipient = .ok closed) (later : List Op) :
    let w := run ctx tableKey { run ctx tableKey init ops with table := closed.1 } later
    (∀ key table authority payer bump result,
      createLookupTable ctx w.bank key table authority payer derivationSlot bump ≠ .ok result) ∧
    ∀ table authority payer slot bump result,
      createLookupTable ctx w.bank tableKey table authority payer slot bump ≠ .ok result := by
  have hd : DerivedFrom ctx tableKey derivationSlot := fun h ↦ (hinj h hkey).2.1
  have hinv := inv_run hd hinit ops
  obtain ⟨hchange, hnone⟩ := @closeLookupTable_change _ _ derivationSlot _ _ _ _ hclose
  have hgone : Gone derivationSlot (run ctx tableKey init ops).bank := by
    rw [hnone] at hchange
    generalize hx : (run ctx tableKey init ops).table.data = x at hchange
    cases hchange with
    | close t live ended => exact (hinv t hx).gone_of_close ended
  obtain ⟨-, -, hold⟩ := @gone_run ctx tableKey derivationSlot
    { run ctx tableKey init ops with table := closed.1 } hd ⟨hnone, hgone⟩ later
  refine ⟨fun key table authority payer bump result h ↦ ?_,
    fun table authority payer slot bump result h ↦ ?_⟩
  · obtain ⟨-, hrecent, -⟩ := createLookupTable_eq_ok h
    exact lt_irrefl _ (hold _ hrecent)
  obtain ⟨-, hrecent, hderived, -⟩ := createLookupTable_eq_ok h
  rw [hd hderived] at hrecent
  exact lt_irrefl _ (hold _ hrecent)

/-- The next `n` banks, one in each slot. -/
def nextBanks (w : World) (n : ℕ) : List Op :=
  (range n).map fun i ↦ .newBank (w.bank.slot + 1 + i) default

lemma run_nextBanks (hlen : w.bank.slotHashes.slots.length ≤ slotHashesMaxEntries) (n : ℕ) :
    (run ctx tableKey w (nextBanks w n)).bank.slot = w.bank.slot + n ∧
    (run ctx tableKey w (nextBanks w n)).table = w.table ∧
    (run ctx tableKey w (nextBanks w n)).bank.slotHashes.slots =
      (((range n).map (w.bank.slot + ·)).reverse ++ w.bank.slotHashes.slots).take
        slotHashesMaxEntries := by
  induction n with
  | zero => exact ⟨rfl, rfl, (take_of_length_le hlen).symm⟩
  | succ n ih =>
    obtain ⟨hslot, htable, hslots⟩ := ih
    have hrun : run ctx tableKey w (nextBanks w (n + 1)) =
        step ctx tableKey (run ctx tableKey w (nextBanks w n))
          (.newBank (w.bank.slot + 1 + n) default) := by
      rw [run, run, nextBanks, nextBanks, range_succ, map_append, foldl_append]
      rfl
    have hlt : (run ctx tableKey w (nextBanks w n)).bank.slot < w.bank.slot + 1 + n := by
      rw [hslot, Nat.add_right_comm]
      exact lt_succ_self _
    have hstep := hrun.trans (dif_pos hlt)
    rw [hstep]
    refine ⟨Nat.add_right_comm w.bank.slot 1 n, htable, ?_⟩
    show (add _ _ default).slots = _
    rw [slots_add_of_lt (run ctx tableKey w (nextBanks w n)).bank.recent, hslots, hslot,
      range_succ, map_append, reverse_append]
    simp only [slotHashesMaxEntries, map_cons, map_nil, reverse_singleton,
      cons_append, take_succ_cons, take_take]
    rfl

lemma run_append (ops ops' : List Op) :
    run ctx tableKey w (ops ++ ops') = run ctx tableKey (run ctx tableKey w ops) ops' :=
  foldl_append

/-- A deactivated table can be closed when the window has moved past its deactivation slot. -/
theorem exists_closeLookupTable {recipient : Party}
    (hlen : w.bank.slotHashes.slots.length ≤ slotHashesMaxEntries) (hdata : w.table.data = some t)
    (howner : w.table.owner = programId) (hslot : t.metadata.deactivationSlot = w.bank.slot)
    (hmax : w.bank.slot ≠ u64Max) (hauthority : t.metadata.authority = some authority.key)
    (hsigner : authority.isSigner = true) (hrecipient : recipient.key ≠ tableKey)
    (hlamports : recipient.account.lamports + w.table.lamports < 2 ^ 64) :
    ∃ closed, closeLookupTable
      (run ctx tableKey w (nextBanks w (slotHashesMaxEntries + 1))).bank tableKey
      (run ctx tableKey w (nextBanks w (slotHashesMaxEntries + 1))).table authority recipient =
        .ok closed := by
  obtain ⟨hnow, htable, hslots⟩ := @run_nextBanks ctx tableKey w hlen (slotHashesMaxEntries + 1)
  set w' := run ctx tableKey w (nextBanks w (slotHashesMaxEntries + 1)) with hw'
  have hover : t.metadata.status w'.bank.slot w'.bank.slotHashes = .deactivated := by
    refine status_eq_deactivated.mpr ⟨hslot ▸ hmax, ?_, ?_⟩
    · rw [hslot, hnow]
      exact (Nat.lt_add_of_pos_right (succ_pos _)).ne
    -- the window has exactly the slots after the deactivation slot
    rw [hslot, hslots, range_succ_eq_map, map_cons, reverse_cons,
      append_assoc, take_left' (by simp)]
    simp
  have hchecked : checkAuthority t authority = .ok () := by
    simp [checkAuthority, hauthority, failIf]
  refine ⟨({ w.table with
      lamports := 0
      data := none },
    { recipient with account := { recipient.account with
      lamports := recipient.account.lamports + w.table.lamports } }), ?_⟩
  rw [htable, closeLookupTable]
  simp only [howner, hsigner, hrecipient, hdata, hover, ne_eq, not_true_eq_false, decide_false,
    Bool.not_true, failIf, Bool.false_eq_true, if_false, okOr, ok_bind, hchecked, checkedAdd,
    if_pos hlamports]
  rfl

/-- An address that is derived from the slot 3 by one authority. -/
def oneAddress : Context where
  createProgramAddress a s b := if a = ⟨1⟩ ∧ s = 3 ∧ b = 0 then .ok ⟨9⟩ else .err .invalidSeeds
  minimumBalance n := n

lemma oneAddress_injective : oneAddress.Injective := by
  intro a a' s s' b b' key h h'
  simp only [oneAddress] at h h'
  split_ifs at h h' with hseeds hseeds'
  obtain ⟨rfl, rfl, rfl⟩ := hseeds
  obtain ⟨rfl, rfl, rfl⟩ := hseeds'
  exact ⟨rfl, rfl, rfl⟩

def owner : Party := ⟨⟨1⟩, true, ⟨5000, [], systemProgramId, false, 0⟩⟩

/-- The slot 4, after a block in the slot 3; no table yet. -/
def slotFour : World :=
  ⟨⟨4, ⟨[(3, default)], pairwise_singleton _ _⟩, fun x hx ↦ by
    obtain rfl := mem_singleton.mp hx
    decide⟩, ⟨0, systemProgramId, none⟩⟩

def createAndDeactivate : List Op := [.create owner owner 3 0, .deactivate owner]

/-- The table is deactivated, and its deactivation slot leaves the recent slots. -/
def untilClosable : List Op :=
  createAndDeactivate ++ nextBanks (run oneAddress ⟨9⟩ slotFour createAndDeactivate) 513

theorem closed_never_recreated_slotFour :
    ∃ closed, closeLookupTable (run oneAddress ⟨9⟩ slotFour untilClosable).bank ⟨9⟩
        (run oneAddress ⟨9⟩ slotFour untilClosable).table owner ⟨⟨2⟩, false, owner.account⟩ =
          .ok closed ∧
      ∀ table result, createLookupTable oneAddress
        (run oneAddress ⟨9⟩ slotFour untilClosable).bank ⟨9⟩ table owner owner
          3 0 ≠ .ok result := by
  have hclose : ∃ closed, closeLookupTable (run oneAddress ⟨9⟩ slotFour untilClosable).bank ⟨9⟩
      (run oneAddress ⟨9⟩ slotFour untilClosable).table owner ⟨⟨2⟩, false, owner.account⟩ =
        .ok closed := by
    rw [untilClosable, run_append]
    exact exists_closeLookupTable (by decide) rfl rfl rfl (by decide) rfl rfl
      (by decide) (by decide)
  generalize untilClosable = ops at hclose ⊢
  obtain ⟨closed, hclosed⟩ := hclose
  exact ⟨closed, hclosed, fun table result ↦ (closed_never_recreated oneAddress oneAddress_injective
    ⟨9⟩ ⟨1⟩ 3 0 rfl slotFour rfl ops owner _ closed hclosed []).1 ⟨9⟩ table owner owner 0 result⟩

/-! ### Tables over time -/

/-- What a later state of a table has in common with an earlier one. -/
structure Later (t t' : AddressLookupTable) : Prop where
  addresses : t.addresses <+: t'.addresses
  frozen : t.metadata.authority = none → t' = t

lemma Later.of_change (h : Change bank d (some t) (some t')) : Later t t' := by
  cases h with
  | extend _ newAddresses m live active length_le extended =>
    exact ⟨prefix_append _ _, fun hnone ↦ by rw [hnone] at live; cases live⟩
  | freeze _ live => exact ⟨prefix_refl _, fun hnone ↦ by rw [hnone] at live; cases live⟩
  | deactivate _ live active =>
    exact ⟨prefix_refl _, fun hnone ↦ by rw [hnone] at live; cases live⟩

lemma Later.trans {t'' : AddressLookupTable} (h : Later t t') (h' : Later t' t'') :
    Later t t'' := by
  refine ⟨h.addresses.trans h'.addresses, fun hnone ↦ ?_⟩
  obtain rfl := h.frozen hnone
  exact h'.frozen hnone

lemma later_run (hd : DerivedFrom ctx tableKey d) (h : Inv d w) (ht : w.table.data = some t)
    (ops : List Op) :
    (∃ t', (run ctx tableKey w ops).table.data = some t' ∧ Later t t') ∨
      ((run ctx tableKey w ops).table.data = none ∧ t.metadata.authority ≠ none) := by
  induction ops generalizing w t with
  | nil => exact .inl ⟨t, ht, prefix_refl _, fun _ ↦ rfl⟩
  | cons op ops ih =>
    show (∃ t', (run ctx tableKey (step ctx tableKey w op) ops).table.data = _ ∧ _) ∨ _
    rcases step_cases hd w op with heq | ⟨-, slot, hash, hlt, heq⟩ | ⟨-, hbank, hchange⟩
    · exact ih (h.step hd op) (by rw [heq]; exact ht)
    · exact ih (h.step hd op) (by rw [heq]; exact ht)
    cases hdata : (step ctx tableKey w op).table.data with
    | some t₁ =>
      rw [ht, hdata] at hchange
      have hlater := Later.of_change hchange
      rcases ih (h.step hd op) hdata with ⟨t', ht', hlater'⟩ | ⟨hnone, hlive⟩
      · exact .inl ⟨t', ht', hlater.trans hlater'⟩
      · exact .inr ⟨hnone, fun hfrozen ↦ hlive (hlater.frozen hfrozen ▸ hfrozen)⟩
    | none =>
      rw [ht, hdata] at hchange
      cases hchange with
      | close _ live ended =>
        have hgone : Gone d (step ctx tableKey w op).bank := hbank ▸ (h t ht).gone_of_close ended
        exact .inr ⟨(gone_run hd ⟨hdata, hgone⟩ ops).1,
          fun hnone ↦ by rw [hnone] at live; cases live⟩

/-! ### Lookups within a slot -/

/-- A table at some point of a slot at whose start there were the addresses `base`, and the
deactivation slot `δ`. -/
structure InSlot (slot : Slot) (base : List Pubkey) (δ : Slot) (t : AddressLookupTable) :
    Prop where
  addresses : t.addresses = base ∧ (t.metadata.lastExtendedSlot < slot ∨
      t.metadata.lastExtendedSlotStartIndex = base.length) ∨
    t.metadata.lastExtendedSlot = slot ∧ t.metadata.lastExtendedSlotStartIndex = base.length ∧
      base <+: t.addresses
  deactivation : t.metadata.deactivationSlot = δ ∨ δ = u64Max ∧ t.metadata.deactivationSlot = slot

variable {base : List Pubkey} {δ : Slot}

lemma InSlot.change (h : InSlot bank.slot base δ t) (hchange : Change bank d (some t) (some t')) :
    InSlot bank.slot base δ t' := by
  cases hchange with
  | extend _ newAddresses m live active length_le extended =>
    obtain ⟨hdeact, hslot, hstart⟩ := extendedMeta_eq_ok extended
    refine ⟨.inr ⟨hslot, ?_, ?_⟩, h.deactivation.imp hdeact.trans (And.imp_right hdeact.trans)⟩
    · show m.lastExtendedSlotStartIndex = base.length
      rcases h.addresses with ⟨haddresses, hbefore | hindex⟩ | ⟨hsame, hindex, -⟩
      · rcases hstart with ⟨heq, -⟩ | ⟨-, heq⟩
        · exact absurd heq hbefore.ne
        · rw [heq, haddresses]
      · rcases hstart with ⟨-, heq⟩ | ⟨-, heq⟩
        · exact heq.trans hindex
        · rw [heq, haddresses]
      rcases hstart with ⟨-, heq⟩ | ⟨hne, -⟩
      · exact heq.trans hindex
      · exact absurd hsame hne
    show base <+: t.addresses ++ newAddresses
    rcases h.addresses with ⟨haddresses, -⟩ | ⟨-, -, hbase⟩
    · exact haddresses ▸ prefix_append _ _
    · exact hbase.trans (prefix_append _ _)
  | freeze _ live => exact ⟨h.addresses, h.deactivation⟩
  | deactivate _ live active =>
    refine ⟨h.addresses, .inr ⟨?_, rfl⟩⟩
    rcases h.deactivation with heq | ⟨heq, -⟩
    · exact heq.symm.trans active
    · exact heq

variable (atStart : Option AddressLookupTable)

/-- The addresses of the table when the slot began. -/
def addressesAtStart : List Pubkey :=
  atStart.elim [] addresses

/-- The deactivation slot of the table when the slot began. -/
def deactivationAtStart : Slot :=
  atStart.elim u64Max fun t ↦ t.metadata.deactivationSlot

/-- At every point of a slot the table is as `InSlot` says, or it is not there: it was not there
before, or it was closed for good. -/
theorem inSlot_run {w₀ : World} (hd : DerivedFrom ctx tableKey d) (ops : List Op)
    (hops : ∀ op ∈ ops, op.isInstruction = true) (h : Inv d w) (hbank : w.bank = w₀.bank)
    (hstart : match w.table.data with
      | none => w₀.table.data = none ∨ Gone d w.bank
      | some t => InSlot w₀.bank.slot (addressesAtStart w₀.table.data)
          (deactivationAtStart w₀.table.data) t) :
    (run ctx tableKey w ops).bank = w₀.bank ∧
      ∀ t ∈ (run ctx tableKey w ops).table.data, InSlot w₀.bank.slot
        (addressesAtStart w₀.table.data) (deactivationAtStart w₀.table.data) t := by
  induction ops generalizing w with
  | nil =>
    refine ⟨hbank, fun t ht ↦ ?_⟩
    have ht : w.table.data = some t := ht
    rw [ht] at hstart
    exact hstart
  | cons op ops ih =>
    obtain ⟨hop, hops⟩ := forall_mem_cons.mp hops
    rcases step_cases hd w op with heq | ⟨hnew, -⟩ | ⟨-, hsame, hchange⟩
    · exact ih hops (h.step hd op) (by rw [heq, hbank]) (by rw [heq]; exact hstart)
    · rw [hop] at hnew
      cases hnew
    refine ih hops (h.step hd op) (hsame.trans hbank) ?_
    rw [hsame]
    generalize (step ctx tableKey w op).table.data = x at hchange ⊢
    cases hdata : w.table.data with
    | none =>
      rw [hdata] at hstart hchange
      cases hchange with
      | create authority recent =>
        -- a table that was closed in this slot cannot come back
        rcases hstart with hnone | hgone
        · rw [hnone]
          exact ⟨.inl ⟨rfl, .inr rfl⟩, .inl rfl⟩
        · exact absurd (hgone.2 d recent) (lt_irrefl d)
    | some t =>
      rw [hdata] at hstart hchange
      cases x with
      | none =>
        cases hchange with
        | close _ live ended => exact .inr ((h t hdata).gone_of_close ended)
      | some t' =>
        rw [← hbank] at hstart ⊢
        exact hstart.change hchange

/-- What a lookup resolves to, given the table at the start of the slot. -/
def lookupAtStart (bank : Bank) (atStart : Option AddressLookupTable) (indexes : List UInt8) :
    Outcome AddressLookupError (List Pubkey) :=
  match atStart with
  | none => okOr .invalidLookupIndex (indexes.mapM fun idx ↦ ([] : List Pubkey)[idx.toNat]?)
  | some t =>
    if t.metadata.isActive bank.slot bank.slotHashes then
      okOr .invalidLookupIndex (indexes.mapM fun idx ↦ t.addresses[idx.toNat]?)
    else .err .lookupTableAccountNotFound

lemma InSlot.isActive {slotHashes : SlotHashes}
    (h : t.metadata.deactivationSlot = m.deactivationSlot ∨
      m.deactivationSlot = u64Max ∧ t.metadata.deactivationSlot = bank.slot) :
    t.metadata.isActive bank.slot slotHashes = m.isActive bank.slot slotHashes := by
  rw [Bool.eq_iff_iff, ← not_iff_not, Bool.not_eq_true, Bool.not_eq_true,
    isActive_eq_false, isActive_eq_false, status_eq_deactivated, status_eq_deactivated]
  rcases h with heq | ⟨hmax, heq⟩
  · rw [heq]
  · exact ⟨fun hover ↦ absurd heq hover.2.1, fun hover ↦ absurd hmax hover.1⟩

lemma getActiveAddressesLen_eq (t : AddressLookupTable) (slot : Slot) (slotHashes : SlotHashes) :
    t.getActiveAddressesLen slot slotHashes = if t.metadata.isActive slot slotHashes then
        .ok (if slot > t.metadata.lastExtendedSlot then t.addresses.length
          else t.metadata.lastExtendedSlotStartIndex)
      else .err .lookupTableAccountNotFound := by
  rw [getActiveAddressesLen]
  cases t.metadata.isActive slot slotHashes with
  | false => rfl
  | true =>
    show (if _ then _ else _) = Outcome.ok (if _ then _ else _)
    split_ifs <;> rfl

lemma InSlot.lookup (h : InSlot bank.slot base δ t) (indexes : List UInt8) :
    t.lookup bank.slot indexes bank.slotHashes =
      if t.metadata.isActive bank.slot bank.slotHashes then
        okOr .invalidLookupIndex (indexes.mapM fun idx ↦ base[idx.toNat]?)
      else .err .lookupTableAccountNotFound := by
  have hslice : ∀ n, t.addresses.take n = base → n ≤ t.addresses.length →
      t.addresses.slice? 0 n = some base := by
    intro n htake hle
    rw [List.slice?, if_pos ⟨zero_le n, hle⟩, htake, drop_zero]
  have hactive : t.addresses.slice? 0 (if bank.slot > t.metadata.lastExtendedSlot then
      t.addresses.length else t.metadata.lastExtendedSlotStartIndex) = some base := by
    split_ifs with hslot
    · rcases h.addresses with ⟨haddresses, -⟩ | ⟨hsame, -⟩
      · exact hslice _ (by rw [take_length, haddresses]) (le_refl _)
      · exact absurd hsame hslot.ne
    rcases h.addresses with ⟨haddresses, hbefore | hindex⟩ | ⟨-, hindex, hbase⟩
    · exact absurd hbefore hslot
    · refine hslice _ ?_ (by rw [hindex, haddresses])
      rw [hindex, haddresses, take_length]
    refine hslice _ ?_ (hindex.le.trans hbase.length_le)
    rw [hindex]
    exact (prefix_iff_eq_take.mp hbase).symm
  rw [AddressLookupTable.lookup, getActiveAddressesLen_eq]
  cases t.metadata.isActive bank.slot bank.slotHashes with
  | false => rfl
  | true =>
    rw [if_pos rfl, ok_bind, hactive, ofOption_some, ok_bind]
    rfl

lemma Valid.lookup_ne_panic (h : Valid d bank t) (slot : Slot) (indexes : List UInt8)
    (slotHashes : SlotHashes) : t.lookup slot indexes slotHashes ≠ .panic := by
  rw [AddressLookupTable.lookup, getActiveAddressesLen_eq]
  cases t.metadata.isActive slot slotHashes with
  | false => simp
  | true =>
    have hle : (if slot > t.metadata.lastExtendedSlot then t.addresses.length
        else t.metadata.lastExtendedSlotStartIndex) ≤ t.addresses.length := by
      split_ifs
      · exact le_refl _
      · exact h.start_le
    rw [if_pos rfl, ok_bind, List.slice?, if_pos ⟨zero_le _, hle⟩, ofOption_some, ok_bind]
    have hok : ∀ o : Option (List Pubkey),
        okOr AddressLookupError.invalidLookupIndex o ≠ .panic := by
      intro o h
      cases o <;> cases h
    exact hok _

/-- A chain that has just begun a slot. -/
def AtStart (ctx : Context) (tableKey : Pubkey) (init : World) (ops : List Op) : Prop :=
  ops = [] ∨ ∃ before slot hash, ops = before ++ [.newBank slot hash] ∧
    (run ctx tableKey init before).bank.slot < slot

lemma lastExtendedSlot_lt {init : World} {ops : List Op} (hd : DerivedFrom ctx tableKey d)
    (hinit : init.table.data = none) (h : AtStart ctx tableKey init ops) :
    ∀ t ∈ (run ctx tableKey init ops).table.data,
      t.metadata.lastExtendedSlot < (run ctx tableKey init ops).bank.slot := by
  intro t ht
  rcases h with rfl | ⟨before, slot, hash, rfl, hlt⟩
  · rw [run, foldl_nil, hinit] at ht
    cases ht
  have hinv := inv_run hd hinit before
  have hlast : run ctx tableKey init (before ++ [.newBank slot hash]) =
      { run ctx tableKey init before with
        bank := (run ctx tableKey init before).bank.child slot hash hlt } := by
    rw [run, foldl_append, foldl_cons, foldl_nil]
    exact dif_pos hlt
  rw [hlast] at ht ⊢
  exact (hinv t ht).extended_le.trans_lt hlt

/-- **Lookups are stable within a slot, and tables are append-only.** Along every chain a table has
at most 256 addresses and its start index is not above their number, so that a lookup does not
panic; an address keeps its index as long as the table exists; a frozen table does not change; and
at every point of a slot a lookup resolves against the addresses the table had at the start of the
slot. -/
theorem lookups_stable (ctx : Context) (tableKey : Pubkey) {d : Slot}
    (hd : DerivedFrom ctx tableKey d) (init : World) (hinit : init.table.data = none)
    (ops : List Op) :
    let w := run ctx tableKey init ops
    (∀ t, w.table.data = some t → t.addresses.length ≤ 256 ∧
      t.metadata.lastExtendedSlotStartIndex ≤ t.addresses.length ∧
      ∀ slot indexes slotHashes, t.lookup slot indexes slotHashes ≠ .panic) ∧
    (∀ later t t', w.table.data = some t → (run ctx tableKey w later).table.data = some t' →
      ∀ (i : ℕ) address, t.addresses[i]? = some address → t'.addresses[i]? = some address) ∧
    (∀ later t, w.table.data = some t → t.metadata.authority = none →
      (run ctx tableKey w later).table.data = some t) ∧
    (AtStart ctx tableKey init ops → ∀ now t indexes, (∀ op ∈ now, Op.isInstruction op = true) →
        (run ctx tableKey w now).table.data = some t →
        t.lookup w.bank.slot indexes w.bank.slotHashes =
          lookupAtStart w.bank w.table.data indexes) := by
  have hinv := inv_run hd hinit ops
  refine ⟨fun t ht ↦ ?_, fun later t t' ht ht' i address hi ↦ ?_, fun later t ht hfrozen ↦ ?_,
    fun hstart now t indexes hnow ht ↦ ?_⟩
  · exact ⟨(hinv t ht).length_le, (hinv t ht).start_le, (hinv t ht).lookup_ne_panic⟩
  · rcases later_run hd hinv ht later with ⟨t₁, ht₁, hlater⟩ | ⟨hnone, -⟩
    · rw [ht', some.injEq] at ht₁
      obtain ⟨others, hothers⟩ := hlater.addresses
      rw [ht₁, ← hothers, List.getElem?_append_left (List.getElem?_eq_some_iff.mp hi).1]
      exact hi
    rw [ht'] at hnone
    cases hnone
  · rcases later_run hd hinv ht later with ⟨t₁, ht₁, hlater⟩ | ⟨-, hlive⟩
    · rw [ht₁, hlater.frozen hfrozen]
    · exact absurd hfrozen hlive
  have hextended := lastExtendedSlot_lt hd hinit hstart
  set w := run ctx tableKey init ops with hw
  obtain ⟨-, hslot⟩ := @inSlot_run ctx tableKey d w w hd now hnow hinv rfl (by
    cases hdata : w.table.data with
    | none => exact .inl rfl
    | some t₀ => exact ⟨.inl ⟨rfl, .inl (hextended t₀ hdata)⟩, .inl rfl⟩)
  have hin := hslot t ht
  rw [hin.lookup]
  cases hdata : w.table.data with
  | none =>
    rw [hdata] at hin
    have hactive : t.metadata.isActive w.bank.slot w.bank.slotHashes =
        (LookupTableMeta.new default).isActive w.bank.slot w.bank.slotHashes :=
      InSlot.isActive hin.deactivation
    have hnew : (LookupTableMeta.new default).isActive w.bank.slot w.bank.slotHashes = true := rfl
    rw [hactive, hnew, if_pos rfl]
    rfl
  | some t₀ =>
    rw [hdata] at hin
    have hactive : t.metadata.isActive w.bank.slot w.bank.slotHashes =
        t₀.metadata.isActive w.bank.slot w.bank.slotHashes :=
      InSlot.isActive hin.deactivation
    rw [hactive]
    rfl

/-- In the slot after the one in which the table was made and extended, lookups find its address. -/
theorem lookups_stable_slotFive : ∃ w, w = run oneAddress ⟨9⟩ slotFour
      [.create owner owner 3 0, .extend owner owner [⟨7⟩], .newBank 5 default] ∧
    w.bank.slot = 5 ∧ ∀ now t indexes, (∀ op ∈ now, Op.isInstruction op = true) →
      (run oneAddress ⟨9⟩ w now).table.data = some t →
      t.lookup 5 indexes w.bank.slotHashes =
        okOr .invalidLookupIndex (indexes.mapM fun idx ↦ [(⟨7⟩ : Pubkey)][idx.toNat]?) := by
  have hkey : oneAddress.createProgramAddress ⟨1⟩ 3 0 = .ok ⟨9⟩ := rfl
  have hd : DerivedFrom oneAddress ⟨9⟩ 3 := fun h ↦ (oneAddress_injective h hkey).2.1
  exact ⟨_, rfl, rfl, (lookups_stable oneAddress ⟨9⟩ hd slotFour rfl _).2.2.2
    (.inr ⟨[.create owner owner 3 0, .extend owner owner [⟨7⟩]], 5, default, rfl, by decide⟩)⟩

end Renec.LookupTable
