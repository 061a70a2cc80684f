import Renec.Sdk.MessageLayout

/-!
# What a compiled message says

A list of instructions with at most 255 keys compiles to a message that has every key once, in which
the signers are the payer and the keys some meta marks so, and whose indices lead back to the keys
of the instructions.
-/

namespace Renec.Message

open List

variable {m : Message} {instructions : List Instruction} {payer : Option Pubkey} {blockhash : Hash}
  {key : Pubkey}

/-! ### Requests -/

section

variable (instructions : List Instruction) (payer : Option Pubkey)

/-- The payer, or a key with a meta of this kind. -/
def Marked (kind : AccountMeta → Bool) (key : Pubkey) : Prop :=
  payer = some key ∨
    ∃ ix ∈ instructions, ∃ account ∈ ix.accounts, account.pubkey = key ∧ kind account = true

/-- The key is the payer's, a program's or an account's. -/
def Used (key : Pubkey) : Prop :=
  (∃ ix ∈ instructions, ix.programId = key) ∨ Marked instructions payer (fun _ ↦ true) key

end

lemma mem_requestedMetas {a : AccountMeta} :
    a ∈ requestedMetas instructions payer ↔ (∃ p, payer = some p ∧ a = ⟨p, true, true⟩) ∨
      (∃ ix ∈ instructions, a ∈ ix.accounts) ∨
      ∃ ix ∈ instructions, a = ⟨ix.programId, false, false⟩ := by
  simp only [requestedMetas, getProgramIds, mem_append, Option.mem_toList, mem_flatMap,
    mem_map, mem_eraseDups]
  refine or_congr ?_ (or_congr_right ?_)
  · rw [Option.map_eq_some_iff]
    exact exists_congr fun p ↦ and_congr_right fun _ ↦ eq_comm
  constructor
  · rintro ⟨-, ⟨ix, hix, rfl⟩, rfl⟩
    exact ⟨ix, hix, rfl⟩
  rintro ⟨ix, hix, rfl⟩
  exact ⟨_, ⟨ix, hix, rfl⟩, rfl⟩

lemma marked_iff {kind : AccountMeta → Bool} (hpayer : ∀ p, kind ⟨p, true, true⟩ = true)
    (hprogram : ∀ p, kind ⟨p, false, false⟩ = false) :
    (∃ a ∈ requestedMetas instructions payer, a.pubkey = key ∧ kind a = true) ↔
      Marked instructions payer kind key := by
  simp only [mem_requestedMetas]
  constructor
  · rintro ⟨a, ⟨p, hp, rfl⟩ | ⟨ix, hix, ha⟩ | ⟨ix, -, rfl⟩, rfl, hk⟩
    · exact .inl hp
    · exact .inr ⟨ix, hix, a, ha, rfl, hk⟩
    rw [hprogram] at hk
    cases hk
  rintro (hp | ⟨ix, hix, a, ha, rfl, hk⟩)
  · exact ⟨_, .inl ⟨key, hp, rfl⟩, rfl, hpayer key⟩
  · exact ⟨a, .inr (.inl ⟨ix, hix, ha⟩), rfl, hk⟩

lemma mem_map_requestedMetas :
    key ∈ (requestedMetas instructions payer).map AccountMeta.pubkey ↔
      Used instructions payer key := by
  simp only [mem_map, mem_requestedMetas]
  constructor
  · rintro ⟨a, ⟨p, hp, rfl⟩ | ⟨ix, hix, ha⟩ | ⟨ix, hix, rfl⟩, rfl⟩
    · exact .inr (.inl hp)
    · exact .inr (.inr ⟨ix, hix, a, ha, rfl, rfl⟩)
    · exact .inl ⟨ix, hix, rfl⟩
  rintro (⟨ix, hix, rfl⟩ | hp | ⟨ix, hix, a, ha, rfl, -⟩)
  · exact ⟨_, .inr (.inr ⟨ix, hix, rfl⟩), rfl⟩
  · exact ⟨_, .inl ⟨key, hp, rfl⟩, rfl⟩
  · exact ⟨a, .inr (.inl ⟨ix, hix, ha⟩), rfl⟩

/-! ### The compilation succeeds -/

variable {metas : List AccountMeta}

lemma exists_foldlM_pushMeta {keys : InstructionKeys}
    (hs : keys.numReadonlySignedAccounts + metas.length < 2 ^ 8)
    (hu : keys.numReadonlyUnsignedAccounts + metas.length < 2 ^ 8) :
    ∃ keys', metas.foldlM pushMeta keys = some keys' := by
  induction metas generalizing keys with
  | nil => exact ⟨keys, rfl⟩
  | cons a metas ih =>
    rw [length_cons] at hs hu
    obtain ⟨next, hnext⟩ : ∃ next, pushMeta keys a = some next := by
      have hs' : checkedAdd 8 keys.numReadonlySignedAccounts 1 = some _ := if_pos (by omega)
      have hu' : checkedAdd 8 keys.numReadonlyUnsignedAccounts 1 = some _ := if_pos (by omega)
      unfold pushMeta
      rw [hs', hu']
      split <;> split <;> exact ⟨_, rfl⟩
    have hadd := pushMeta_eq_add hnext
    have hle : ∀ p : AccountMeta → Bool, [a].countP p ≤ 1 := fun p ↦ countP_le_length
    have hle₁ := hle fun m ↦ m.isSigner && !m.isWritable
    have hle₂ := hle fun m ↦ !m.isSigner && !m.isWritable
    obtain ⟨keys', h⟩ := @ih next (by rw [hadd, InstructionKeys.add]; dsimp only; omega)
      (by rw [hadd, InstructionKeys.add]; dsimp only; omega)
    exact ⟨keys', by rw [foldlM_cons, hnext]; exact h⟩

variable {keys : List Pubkey}

lemma exists_position (h : key ∈ keys) : ∃ i, position keys key = some i := by
  have hsome : (keys.findIdx? fun k ↦ decide (k = key)).isSome = true := by
    rw [findIdx?_isSome, any_eq_true]
    exact ⟨key, h, decide_eq_true rfl⟩
  obtain ⟨i, hi⟩ := Option.isSome_iff_exists.mp hsome
  exact ⟨_, by rw [position, hi]; rfl⟩

lemma getElem?_position {i : ℕ} (hlen : keys.length ≤ 2 ^ 8) (h : position keys key = some i) :
    keys[i]? = some key := by
  rw [position, Option.map_eq_some_iff] at h
  obtain ⟨j, hj, rfl⟩ := h
  obtain ⟨hlt, hkey, -⟩ := findIdx?_eq_some_iff_getElem.mp hj
  rw [Nat.mod_eq_of_lt (hlt.trans_le hlen), getElem?_eq_getElem hlt]
  exact congrArg some (of_decide_eq_true hkey)

lemma exists_newWithBlockhash
    (hcard : ((requestedMetas instructions payer).map AccountMeta.pubkey).toFinset.card ≤ 255) :
    ∃ m, newWithBlockhash instructions payer blockhash = some m := by
  have hlength : (uniqueMetas (orderedMetas instructions payer)).length ≤ 255 := by
    rw [orderedMetas_eq, uniqueMetas_eq (signers_first _), length_map,
      ← toFinset_card_of_nodup (FirstOccurrences.nodup_eraseDups _)]
    refine (Finset.card_le_card fun k hk ↦ ?_).trans hcard
    simp only [mem_toFinset, mem_eraseDups, mem_map, mem_sortMetas] at hk ⊢
    exact hk
  obtain ⟨keys, hkeys⟩ : ∃ keys, getKeys instructions payer = some keys :=
    exists_foldlM_pushMeta (by dsimp only; omega) (by dsimp only; omega)
  -- every key of an instruction has a position
  have hmem : ∀ key, Used instructions payer key → key ∈ keys.signedKeys ++ keys.unsignedKeys := by
    intro key hused
    rw [getKeys_eq hkeys rfl, ← eraseDups_sortMetas, mem_eraseDups]
    obtain ⟨a, ha, hk⟩ := mem_map.mp (mem_map_requestedMetas.mpr hused)
    exact mem_map.mpr ⟨a, mem_sortMetas.mpr ha, hk⟩
  obtain ⟨compiled, hcompiled⟩ : ∃ compiled,
      compileInstructions instructions (keys.signedKeys ++ keys.unsignedKeys) = some compiled := by
    refine exists_mapM_eq_some fun ix hix ↦ ?_
    obtain ⟨accounts, haccounts⟩ := exists_mapM_eq_some
      (l := ix.accounts) (f := fun a ↦ position (keys.signedKeys ++ keys.unsignedKeys) a.pubkey)
      fun a ha ↦ exists_position (hmem _ (.inr (.inr ⟨ix, hix, a, ha, rfl, rfl⟩)))
    obtain ⟨i, hi⟩ := exists_position (hmem ix.programId (.inl ⟨ix, hix, rfl⟩))
    exact ⟨_, by rw [compileInstruction, haccounts, hi]; rfl⟩
  simp only [newWithBlockhash, hkeys, some_bind, hcompiled]
  exact ⟨_, rfl⟩

/-! ### The message -/

/-- A compiled instruction leads back to the keys of its instruction, in order. -/
def Resolves (m : Message) (ix : Instruction) (compiled : CompiledInstruction) : Prop :=
  m.accountKeys[compiled.programIdIndex]? = some ix.programId ∧
    compiled.accounts.map (m.accountKeys[·]?) = ix.accounts.map (fun a ↦ some a.pubkey) ∧
    compiled.data = ix.data

lemma forall₂_resolves (h : newWithBlockhash instructions payer blockhash = some m)
    (hlen : m.accountKeys.length ≤ 2 ^ 8) :
    Forall₂ (Resolves m) instructions m.instructions := by
  refine (mapM_eq_some_iff.mp (newWithBlockhash_eq_some h rfl).2.2).imp fun ix compiled hix ↦ ?_
  simp only [compileInstruction, bind_eq_some, pure_eq_some] at hix
  obtain ⟨accounts, haccounts, i, hi, rfl⟩ := hix
  exact ⟨getElem?_position hlen hi,
    map_eq_of_mapM_eq_some haccounts fun _ _ _ hj ↦ getElem?_position hlen hj, rfl⟩

lemma writes_iff_segments :
    writes metas key = true ↔ key ∈ writableSigners metas ∨
      (key ∈ readonlySigners metas ∧ writes metas key = true) ∨ key ∈ writableNonSigners metas := by
  rw [mem_writableSigners, mem_readonlySigners, mem_writableNonSigners]
  constructor
  · intro hw
    rcases writes_iff_mem_keysWith.mp hw with h | h
    · exact .inl h
    cases hs : signs metas key with
    | false => exact .inr (.inr ⟨h, rfl⟩)
    | true =>
      by_cases hws : key ∈ keysWith metas true true
      · exact .inl hws
      · exact .inr (.inl ⟨⟨(signs_iff_mem_keysWith.mp hs).resolve_left hws, hws⟩, hw⟩)
  rintro (h | ⟨-, hw⟩ | ⟨h, -⟩)
  · exact writes_of_mem_keysWith h
  · exact hw
  · exact writes_of_mem_keysWith h

/-- **Compilation is faithful.** With at most 255 keys in total the message has each key once, signs
for the payer and the keys marked so, and its indices lead to the keys of the instructions. Its
writable segments hold the payer and the keys marked writable, exactly if the promoted keys of the
second segment come first in it. -/
theorem compilation_faithful
    (hcard : ((requestedMetas instructions payer).map AccountMeta.pubkey).toFinset.card ≤ 255) :
    ∃ m, newWithBlockhash instructions payer blockhash = some m ∧ m.accountKeys.Nodup ∧
      (∀ key, key ∈ m.accountKeys ↔ Used instructions payer key) ∧
      (∀ key, m.SignerKey key ↔ Marked instructions payer AccountMeta.isSigner key) ∧
      ((∀ key, m.WritableSegment key ↔ Marked instructions payer AccountMeta.isWritable key) ↔
        ∀ key ∈ readonlySigners (requestedMetas instructions payer),
          key ∈ misplacedKeys (requestedMetas instructions payer) ↔
            Marked instructions payer AccountMeta.isWritable key) ∧
      Forall₂ (Resolves m) instructions m.instructions := by
  obtain ⟨m, h⟩ := @exists_newWithBlockhash instructions payer blockhash hcard
  have hlen : m.accountKeys.length ≤ 255 := length_accountKeys h ▸ hcard
  obtain ⟨metas, hmetas⟩ : ∃ metas, requestedMetas instructions payer = metas := ⟨_, rfl⟩
  have hsigned : (writableSigners metas ++ readonlySigners metas).length < 2 ^ 8 := by
    rw [(newWithBlockhash_eq_some h hmetas).1, length_append] at hlen
    omega
  have hwrites : ∀ key, writes metas key = true ↔
      Marked instructions payer AccountMeta.isWritable key := fun key ↦ by
    rw [writes_eq_true, ← hmetas, marked_iff (fun _ ↦ rfl) fun _ ↦ rfl]
  refine ⟨m, h, nodup_accountKeys h, fun key ↦ ?_, fun key ↦ ?_, ?_,
    forall₂_resolves h (hlen.trans (by decide))⟩
  · rw [mem_accountKeys_iff h, mem_map_requestedMetas]
  · rw [signerKey_iff h hmetas hsigned, signs_eq_true, ← hmetas,
      marked_iff (fun _ ↦ rfl) fun _ ↦ rfl]
  rw [hmetas]
  simp only [writableSegment_iff h hmetas hsigned, ← hwrites]
  constructor
  · intro hall key hkey
    -- a key of the second segment has no claim to another
    have hkey' := mem_readonlySigners.mp hkey
    have hnot : key ∉ writableNonSigners metas := fun hn ↦ by
      have hs := signs_iff_mem_keysWith.mpr (.inr hkey'.1)
      rw [(mem_writableNonSigners.mp hn).2] at hs
      cases hs
    rw [← hall key, mem_writableSigners, or_iff_right hkey'.2, or_iff_left hnot]
  intro hall key
  rw [writes_iff_segments]
  refine or_congr_right (or_congr_left ⟨fun hk ↦ ?_, fun hk ↦ (hall key hk.1).mpr hk.2⟩)
  have hmem := mem_of_mem_take hk
  exact ⟨hmem, (hall key hmem).mp hk⟩

/-- Two accounts of one instruction, and a payer. -/
theorem compilation_faithful_transfer :
    ∃ m, newWithBlockhash [⟨⟨0⟩, [⟨⟨1⟩, true, true⟩, ⟨⟨2⟩, false, true⟩], []⟩] (some ⟨1⟩) default =
      some m ∧ m.accountKeys.Nodup := by
  obtain ⟨m, h, hnodup, -⟩ := @compilation_faithful
    [⟨⟨0⟩, [⟨⟨1⟩, true, true⟩, ⟨⟨2⟩, false, true⟩], []⟩] (some ⟨1⟩) default (by decide)
  exact ⟨m, h, hnodup⟩

/-- Key 2 signs, and is writable by a further meta; key 1 signs only. The message makes key 1
writable and key 2 read-only. -/
theorem promoted_not_moved :
    (newWithBlockhash [⟨⟨0⟩, [⟨⟨1⟩, true, false⟩, ⟨⟨2⟩, true, false⟩, ⟨⟨2⟩, false, true⟩], []⟩] none
      default).map (fun m ↦ (m.accountKeys, m.isWritableIndex 0, m.isWritableIndex 1)) =
      some ([⟨1⟩, ⟨2⟩, ⟨0⟩], some true, some false) := by
  decide

end Renec.Message
