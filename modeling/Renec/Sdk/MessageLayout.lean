import Renec.Collections.FirstOccurrences
import Renec.Collections.StableSort
import Renec.Sdk.Message

/-!
# The layout of a compiled message

What `getKeys` makes of the account metas, in closed form. With the keys of the metas of each of
the four privileges taken in the order of the metas, the keys of the message are

```
[ signed writable | other signed | unsigned writable | the rest ]
```

each once, in the first segment it has a claim to (`getKeys_eq`). Whether a key is *counted* as
writable is another matter: a key of the second segment for which a further meta asks for write
access without a signature was promoted where it stands. The header then has as many writable
signers as it should, but it gives the access to the first ones of the second segment, whichever
they are: `misplacedKeys`. By position, then, a key is writable exactly if its first claim is to a
writable segment or it is one of the misplaced keys (`writableSegment_iff`).
-/

namespace Renec

open List FirstOccurrences InstructionKeys AccountMeta

/-! ### Requests -/

/-- All metas of a list of instructions as they are requested: the payer, then the accounts, then
the programs. -/
def requestedMetas (instructions : List Instruction) (payer : Option Pubkey) : List AccountMeta :=
  (payer.map fun payer ↦ ⟨payer, true, true⟩).toList ++
    (instructions.flatMap Instruction.accounts ++
      (getProgramIds instructions).map fun programId ↦ ⟨programId, false, false⟩)

lemma requestedMetas_singleton (ix : Instruction) :
    requestedMetas [ix] none = ix.accounts ++ [⟨ix.programId, false, false⟩] := by
  rw [requestedMetas, getProgramIds, map_singleton, eraseDups_singleton]
  simp

variable {key : Pubkey} {m : AccountMeta}

section

variable (metas : List AccountMeta)

/-- The metas with exactly these flags. -/
def metasWith (isSigner isWritable : Bool) : List AccountMeta :=
  metas.filter fun m ↦ m.isSigner == isSigner && m.isWritable == isWritable

/-- The keys of the metas with exactly these flags. -/
def keysWith (isSigner isWritable : Bool) : List Pubkey :=
  (metasWith metas isSigner isWritable).map pubkey

/-- Some meta marks the key a signer. -/
def signs (key : Pubkey) : Bool := metas.any fun m ↦ m.pubkey == key && m.isSigner

/-- Some meta marks the key writable. -/
def writes (key : Pubkey) : Bool := metas.any fun m ↦ m.pubkey == key && m.isWritable

/-- The keys of the first segment. -/
def writableSigners : List Pubkey := (keysWith metas true true).eraseDups

/-- The keys of the second segment: no meta that marks one of them a signer asks for write
access. -/
def readonlySigners : List Pubkey :=
  ((keysWith metas true false).removeAll (keysWith metas true true)).eraseDups

/-- The keys of the third segment. -/
def writableNonSigners : List Pubkey :=
  ((keysWith metas false true).removeAll
    (keysWith metas true true ++ keysWith metas true false)).eraseDups

/-- The keys of the last segment. -/
def readonlyNonSigners : List Pubkey :=
  ((keysWith metas false false).removeAll (keysWith metas true true ++ keysWith metas true false ++
    keysWith metas false true)).eraseDups

/-- The keys of the second segment that lie where the header says writable: as many as there are
promoted ones, from the start. -/
def misplacedKeys : List Pubkey :=
  (readonlySigners metas).take ((readonlySigners metas).countP (writes metas))

variable {metas} {s w : Bool}

lemma mem_metasWith :
    m ∈ metasWith metas s w ↔ m ∈ metas ∧ m.isSigner = s ∧ m.isWritable = w := by
  simp [metasWith]

lemma mem_keysWith : key ∈ keysWith metas s w ↔
      ∃ m ∈ metas, m.pubkey = key ∧ m.isSigner = s ∧ m.isWritable = w := by
  simp only [keysWith, mem_map, mem_metasWith]
  constructor
  · rintro ⟨m, ⟨hm, hs, hw⟩, rfl⟩
    exact ⟨m, hm, rfl, hs, hw⟩
  rintro ⟨m, hm, rfl, hs, hw⟩
  exact ⟨m, ⟨hm, hs, hw⟩, rfl⟩

lemma signs_eq_true : signs metas key = true ↔ ∃ m ∈ metas, m.pubkey = key ∧ m.isSigner = true := by
  simp [signs]

lemma writes_eq_true :
    writes metas key = true ↔ ∃ m ∈ metas, m.pubkey = key ∧ m.isWritable = true := by
  simp [writes]

lemma signs_iff_mem_keysWith :
    signs metas key = true ↔ key ∈ keysWith metas true true ∨ key ∈ keysWith metas true false := by
  rw [signs_eq_true, mem_keysWith, mem_keysWith]
  constructor
  · rintro ⟨m, hm, hk, hs⟩
    cases hw : m.isWritable with
    | true => exact .inl ⟨m, hm, hk, hs, hw⟩
    | false => exact .inr ⟨m, hm, hk, hs, hw⟩
  · rintro (⟨m, hm, hk, hs, -⟩ | ⟨m, hm, hk, hs, -⟩) <;> exact ⟨m, hm, hk, hs⟩

lemma writes_of_mem_keysWith (h : key ∈ keysWith metas s true) : writes metas key = true := by
  obtain ⟨m, hm, hk, -, hw⟩ := mem_keysWith.mp h
  exact writes_eq_true.mpr ⟨m, hm, hk, hw⟩

lemma writes_iff_mem_keysWith :
    writes metas key = true ↔ key ∈ keysWith metas true true ∨ key ∈ keysWith metas false true := by
  constructor
  · intro h
    obtain ⟨m, hm, hk, hw⟩ := writes_eq_true.mp h
    cases hs : m.isSigner with
    | true => exact .inl (mem_keysWith.mpr ⟨m, hm, hk, hs, hw⟩)
    | false => exact .inr (mem_keysWith.mpr ⟨m, hm, hk, hs, hw⟩)
  · rintro (h | h) <;> exact writes_of_mem_keysWith h

@[simp] lemma mem_writableSigners :
    key ∈ writableSigners metas ↔ key ∈ keysWith metas true true := mem_eraseDups

@[simp] lemma mem_readonlySigners : key ∈ readonlySigners metas ↔
      key ∈ keysWith metas true false ∧ key ∉ keysWith metas true true := by
  rw [readonlySigners, mem_eraseDups, mem_removeAll]

@[simp] lemma mem_writableNonSigners : key ∈ writableNonSigners metas ↔
      key ∈ keysWith metas false true ∧ signs metas key = false := by
  rw [writableNonSigners, mem_eraseDups, mem_removeAll, mem_append,
    ← signs_iff_mem_keysWith, Bool.not_eq_true]

@[simp] lemma mem_readonlyNonSigners : key ∈ readonlyNonSigners metas ↔
      key ∈ keysWith metas false false ∧ signs metas key = false ∧ writes metas key = false := by
  rw [readonlyNonSigners, mem_eraseDups, mem_removeAll, mem_append, mem_append,
    ← signs_iff_mem_keysWith]
  refine and_congr_right fun _ ↦ ?_
  rw [not_or, Bool.not_eq_true]
  refine and_congr_right fun hs ↦ ?_
  have hnot : key ∉ keysWith metas true true := fun h ↦ by
    rw [signs_iff_mem_keysWith.mpr (.inl h)] at hs
    cases hs
  rw [← Bool.not_eq_true, writes_iff_mem_keysWith]
  simp only [hnot, false_or]

end

/-! ### The sorted metas -/

/-- The segment a meta has a claim to. -/
def AccountMeta.rank (m : AccountMeta) : ℕ :=
  (if m.isSigner then 0 else 2) + if m.isWritable then 0 else 1

lemma compareMetas_isLE_iff (x y : AccountMeta) :
    (compareMetas x y).isLE = true ↔ x.rank ≤ y.rank := by
  have hflags : ∀ sx wx sy wy : Bool, ((compare sy sx).then (compare wy wx)).isLE = true ↔
      (if sx then 0 else 2) + (if wx then 0 else 1) ≤
        (if sy then 0 else 2) + if wy then 0 else 1 := by
    decide
  exact hflags _ _ _ _

lemma filter_rank_eq_metasWith (metas : List AccountMeta) (s w : Bool) :
    metas.filter (fun m ↦ m.rank = (if s then 0 else 2) + if w then 0 else 1) =
      metasWith metas s w := by
  refine filter_congr fun m _ ↦ ?_
  obtain ⟨-, sm, wm⟩ := m
  cases sm <;> cases wm <;> cases s <;> cases w <;> rfl

/-- The sorted metas, segment by segment. -/
theorem sortMetas_eq (metas : List AccountMeta) :
    sortMetas metas = metasWith metas true true ++ metasWith metas true false ++
      metasWith metas false true ++ metasWith metas false false := by
  have hlt : ∀ m ∈ metas, rank m < 4 := fun m _ ↦ by
    unfold rank
    split_ifs <;> decide
  have hsort := StableSort.insertionSort_eq_flatMap compareMetas_isLE_iff hlt
  rw [sortMetas, hsort, ← filter_rank_eq_metasWith, ← filter_rank_eq_metasWith,
    ← filter_rank_eq_metasWith, ← filter_rank_eq_metasWith]
  simp [range_succ]

variable {metas : List AccountMeta}

lemma mem_sortMetas : m ∈ sortMetas metas ↔ m ∈ metas := mem_insertionSort _

lemma orderedMetas_eq (instructions : List Instruction) (payer : Option Pubkey) :
    orderedMetas instructions payer = sortMetas (requestedMetas instructions payer) := by
  cases payer with
  | none => rfl
  | some payer =>
    have hfirst : ∀ m : AccountMeta, (compareMetas ⟨payer, true, true⟩ m).isLE = true := fun m ↦
      (compareMetas_isLE_iff _ _).mpr (Nat.zero_le m.rank)
    show _ = orderedInsert _ ⟨payer, true, true⟩ (sortMetas _)
    cases hrest : sortMetas _ with
    | nil => exact congrArg (cons _) hrest
    | cons m rest =>
      rw [orderedInsert_cons, if_pos (hfirst m)]
      exact congrArg (cons _) hrest

/-! ### Unique metas -/

lemma insertMeta_of_notMem {unique : List AccountMeta}
    (h : m.pubkey ∉ unique.map pubkey) : insertMeta unique m = unique ++ [m] := by
  induction unique with
  | nil => rfl
  | cons x unique ih =>
    rw [map_cons, mem_cons, not_or] at h
    rw [insertMeta, if_neg (Ne.symm h.1), ih h.2, cons_append]

lemma insertMeta_map_of_mem {f : Pubkey → AccountMeta} (hf : ∀ key, (f key).pubkey = key)
    {keys : List Pubkey} (hnodup : keys.Nodup) (h : m.pubkey ∈ keys) :
    insertMeta (keys.map f) m = keys.map fun key ↦
      ⟨key, (f key).isSigner, (f key).isWritable || (m.pubkey == key && m.isWritable)⟩ := by
  have hself : ∀ key, m.pubkey ≠ key →
      f key = ⟨key, (f key).isSigner,
        (f key).isWritable || (m.pubkey == key && m.isWritable)⟩ := fun key hne ↦ by
    rw [beq_eq_false_iff_ne.mpr hne, Bool.false_and, Bool.or_false]
    exact congrArg (AccountMeta.mk · _ _) (hf key)
  induction keys with
  | nil => cases h
  | cons key keys ih =>
    rw [nodup_cons] at hnodup
    rw [map_cons, map_cons, insertMeta, hf]
    by_cases hkey : key = m.pubkey
    · -- the key occurs once, so the rest stays as it is
      rw [if_pos hkey, ← hkey, BEq.rfl, Bool.true_and]
      refine congrArg₂ cons rfl (map_congr_left fun k hk ↦ ?_)
      rw [hkey]
      exact hself k fun hmk ↦ hnodup.1 ((hkey.trans hmk) ▸ hk)
    rw [if_neg hkey, ih hnodup.2 ((mem_cons.mp h).resolve_left (Ne.symm hkey)),
      ← hself key (Ne.symm hkey)]

/-- The unique metas of a list that has signers first: each key once, with every privilege some meta
asks for. -/
theorem uniqueMetas_eq (hsorted : metas.Pairwise fun a b ↦ b.isSigner = true → a.isSigner = true) :
    uniqueMetas metas = (metas.map pubkey).eraseDups.map fun key ↦
      ⟨key, signs metas key, writes metas key⟩ := by
  induction metas using reverseRecOn with
  | nil => rfl
  | append_singleton metas m ih =>
    rw [pairwise_append] at hsorted
    obtain ⟨hmetas, -, hlast⟩ := hsorted
    have hunique : uniqueMetas (metas ++ [m]) = insertMeta (uniqueMetas metas) m := by
      rw [uniqueMetas, foldl_append]
      rfl
    have hsigns (key : Pubkey) :
        signs (metas ++ [m]) key = (signs metas key || (m.pubkey == key && m.isSigner)) := by
      simp [signs]
    have hwrites (key : Pubkey) :
        writes (metas ++ [m]) key = (writes metas key || (m.pubkey == key && m.isWritable)) := by
      simp [writes]
    rw [hunique, ih hmetas, map_append, map_singleton, eraseDups_concat]
    split_ifs with hmem
    · rw [insertMeta_map_of_mem (fun _ ↦ rfl) (nodup_eraseDups _) (mem_eraseDups.mpr hmem)]
      refine map_congr_left fun key _ ↦ ?_
      rw [hsigns, hwrites]
      -- a signer comes after signers only, so the kept meta of its key is one
      have hs : (signs metas key || (m.pubkey == key && m.isSigner)) = signs metas key := by
        rw [Bool.or_eq_left_iff_imp, Bool.and_eq_true, beq_iff_eq]
        rintro ⟨rfl, hms⟩
        obtain ⟨m', hm', hk'⟩ := mem_map.mp hmem
        exact signs_eq_true.mpr ⟨m', hm', hk', hlast m' hm' m (mem_singleton_self m) hms⟩
      rw [hs]
    have hnot : ∀ m' ∈ metas, m'.pubkey ≠ m.pubkey := fun m' hm' hk ↦
      hmem (mem_map.mpr ⟨m', hm', hk⟩)
    have hs : signs metas m.pubkey = false := by
      simpa [signs] using fun m' hm' hk ↦ absurd hk (hnot m' hm')
    have hw : writes metas m.pubkey = false := by
      simpa [writes] using fun m' hm' hk ↦ absurd hk (hnot m' hm')
    rw [insertMeta_of_notMem (by simpa [Function.comp_def] using hnot), map_append,
      map_singleton, hsigns, hwrites, hs, hw, BEq.rfl]
    refine congrArg₂ (· ++ ·) (map_congr_left fun key hkey ↦ ?_) rfl
    have hne : (m.pubkey == key) = false :=
      beq_eq_false_iff_ne.mpr fun h ↦ hmem (h ▸ mem_eraseDups.mp hkey)
    rw [hsigns, hwrites, hne, Bool.false_and, Bool.or_false, Bool.false_and, Bool.or_false]

/-! ### The keys of a message -/

/-- The keys after some more metas are filed. -/
def InstructionKeys.add (keys : InstructionKeys) (metas : List AccountMeta) : InstructionKeys :=
  ⟨keys.signedKeys ++ (metas.filter fun m ↦ m.isSigner).map pubkey,
    keys.unsignedKeys ++ (metas.filter fun m ↦ !m.isSigner).map pubkey,
    keys.numReadonlySignedAccounts + metas.countP fun m ↦ m.isSigner && !m.isWritable,
    keys.numReadonlyUnsignedAccounts + metas.countP fun m ↦ !m.isSigner && !m.isWritable⟩

lemma InstructionKeys.add_cons (keys : InstructionKeys) (m : AccountMeta)
    (metas : List AccountMeta) : keys.add (m :: metas) = (keys.add [m]).add metas := by
  obtain ⟨key, s, w⟩ := m
  cases s <;> cases w <;> simp [add, Nat.add_comm, Nat.add_assoc]

variable {keys : InstructionKeys}

lemma pushMeta_eq_add {next : InstructionKeys} (h : pushMeta keys m = some next) :
    next = keys.add [m] := by
  obtain ⟨key, s, w⟩ := m
  cases s <;> cases w <;> simp [pushMeta, Option.bind_eq_some_iff] at h
  · obtain ⟨-, rfl⟩ := h
    simp [add]
  · subst h
    simp [add]
  · obtain ⟨-, rfl⟩ := h
    simp [add]
  subst h
  simp [add]

lemma foldlM_pushMeta {keys' : InstructionKeys} (h : metas.foldlM pushMeta keys = some keys') :
    keys' = keys.add metas := by
  induction metas generalizing keys with
  | nil =>
    cases h
    simp [add]
  | cons m metas ih =>
    rw [foldlM_cons, bind_eq_some] at h
    obtain ⟨next, hnext, h⟩ := h
    rw [ih h, pushMeta_eq_add hnext, ← add_cons]

variable {instructions : List Instruction} {payer : Option Pubkey}

section

variable (metas : List AccountMeta)

lemma eraseDups_sortMetas : ((sortMetas metas).map pubkey).eraseDups =
      writableSigners metas ++ readonlySigners metas ++
        (writableNonSigners metas ++ readonlyNonSigners metas) := by
  rw [sortMetas_eq, map_append, map_append, map_append, eraseDups_append,
    eraseDups_append, eraseDups_append, append_assoc]
  rfl

lemma signers_first :
    (sortMetas metas).Pairwise fun a b ↦ b.isSigner = true → a.isSigner = true := by
  refine (StableSort.pairwise_insertionSort compareMetas_isLE_iff metas).imp ?_
  intro a b hle hb
  by_contra ha
  rw [rank, rank, if_neg ha, if_pos hb] at hle
  split_ifs at hle <;> omega

lemma signs_sortMetas : signs (sortMetas metas) = signs metas := by
  funext key
  rw [Bool.eq_iff_iff, signs_eq_true, signs_eq_true]
  simp only [mem_sortMetas]

lemma writes_sortMetas : writes (sortMetas metas) = writes metas := by
  funext key
  rw [Bool.eq_iff_iff, writes_eq_true, writes_eq_true]
  simp only [mem_sortMetas]

end

lemma signs_of_mem_signers
    (h : key ∈ writableSigners metas ++ readonlySigners metas) : signs metas key = true := by
  rw [mem_append, mem_writableSigners, mem_readonlySigners] at h
  exact signs_iff_mem_keysWith.mpr (h.imp_right And.left)

lemma signs_of_mem_nonSigners
    (h : key ∈ writableNonSigners metas ++ readonlyNonSigners metas) : signs metas key = false := by
  rw [mem_append, mem_writableNonSigners, mem_readonlyNonSigners] at h
  exact h.elim And.right fun h ↦ h.2.1

lemma add_map_append {signed unsigned : List Pubkey} {s w : Pubkey → Bool}
    (hs : ∀ key ∈ signed, s key = true) (hu : ∀ key ∈ unsigned, s key = false) :
    add ⟨[], [], 0, 0⟩ ((signed ++ unsigned).map fun key ↦ ⟨key, s key, w key⟩) =
      ⟨signed, unsigned, signed.countP fun key ↦ !w key, unsigned.countP fun key ↦ !w key⟩ := by
  have hfs : (signed ++ unsigned).filter s = signed := by
    rw [filter_append, filter_eq_self.mpr hs,
      filter_eq_nil_iff.mpr fun key hkey ↦ by rw [hu key hkey]; exact Bool.false_ne_true,
      append_nil]
  have hfu : (signed ++ unsigned).filter (fun key ↦ !s key) = unsigned := by
    rw [filter_append, filter_eq_nil_iff.mpr fun key hkey ↦ by simp [hs key hkey],
      filter_eq_self.mpr fun key hkey ↦ by simp [hu key hkey], nil_append]
  have hcs : (signed ++ unsigned).countP (fun key ↦ s key && !w key) =
      signed.countP fun key ↦ !w key := by
    rw [← hfs, countP_filter, hfs]
    exact countP_congr fun key _ ↦ by rw [Bool.and_comm]
  have hcu : (signed ++ unsigned).countP (fun key ↦ !s key && !w key) =
      unsigned.countP fun key ↦ !w key := by
    rw [← hfu, countP_filter, hfu]
    exact countP_congr fun key _ ↦ by rw [Bool.and_comm]
  simp only [add, filter_map, map_map, countP_map,
    Function.comp_def, hfs, hfu, hcs, hcu, map_id', nil_append, Nat.zero_add]

/-- The keys of a message, segment by segment. The promoted keys do not count as read-only. -/
theorem getKeys_eq (h : getKeys instructions payer = some keys)
    (hmetas : requestedMetas instructions payer = metas) :
    keys = ⟨writableSigners metas ++ readonlySigners metas,
      writableNonSigners metas ++ readonlyNonSigners metas,
      (readonlySigners metas).countP fun key ↦ !writes metas key,
      (readonlyNonSigners metas).length⟩ := by
  rw [getKeys, orderedMetas_eq, hmetas, uniqueMetas_eq (signers_first _), eraseDups_sortMetas,
    signs_sortMetas, writes_sortMetas] at h
  have hws : (writableSigners metas).countP (fun key ↦ !writes metas key) = 0 :=
    countP_eq_zero.mpr fun key hkey ↦ by
      simp [writes_of_mem_keysWith (mem_writableSigners.mp hkey)]
  have hwn : (writableNonSigners metas).countP (fun key ↦ !writes metas key) = 0 :=
    countP_eq_zero.mpr fun key hkey ↦ by
      simp [writes_of_mem_keysWith (mem_writableNonSigners.mp hkey).1]
  have hrn : (readonlyNonSigners metas).countP (fun key ↦ !writes metas key) =
      (readonlyNonSigners metas).length :=
    countP_eq_length.mpr fun key hkey ↦ by simp [(mem_readonlyNonSigners.mp hkey).2.2]
  rw [foldlM_pushMeta h, add_map_append (fun _ ↦ signs_of_mem_signers)
    (fun _ ↦ signs_of_mem_nonSigners), countP_append, countP_append, hws, hwn, hrn,
    Nat.zero_add, Nat.zero_add]

/-! ### Privileges by position -/

namespace Message

section

variable (m : Message) (key : Pubkey)

/-- The key lies in a segment that the header says is signed. -/
def SignerKey : Prop :=
  ∃ i, m.accountKeys[i]? = some key ∧ m.isSigner i = true

/-- The key lies in a segment that the header says is writable. -/
def WritableSegment : Prop :=
  ∃ i, m.accountKeys[i]? = some key ∧ m.isWritableIndex i = some true

def WritableKey : Prop :=
  ∃ i, m.accountKeys[i]? = some key ∧ m.isWritable i = some true

end

/-- The key is one that a message never makes writable: a sysvar, a builtin program, or a program
it calls while the upgradeable loader is absent. -/
def Demoted (instructions : List Instruction) (accountKeys : List Pubkey) (key : Pubkey) : Prop :=
  isSysvarId key = true ∨ key ∈ builtinProgramsKeys ∨
    (∃ ix ∈ instructions, ix.programId = key) ∧ bpfLoaderUpgradeableId ∉ accountKeys

variable {m : Message} {i : ℕ}

lemma isWritableIndex_eq_true (hs : m.header.numReadonlySignedAccounts ≤
    m.header.numRequiredSignatures)
    (hu : m.header.numReadonlyUnsignedAccounts ≤ m.accountKeys.length) :
    m.isWritableIndex i = some true ↔
      i < m.header.numRequiredSignatures - m.header.numReadonlySignedAccounts ∨
      m.header.numRequiredSignatures ≤ i ∧
        i < m.accountKeys.length - m.header.numReadonlyUnsignedAccounts := by
  have hsub : checkedSub m.header.numRequiredSignatures m.header.numReadonlySignedAccounts =
    some (m.header.numRequiredSignatures - m.header.numReadonlySignedAccounts) := if_pos hs
  have husub : checkedSub m.accountKeys.length m.header.numReadonlyUnsignedAccounts =
    some (m.accountKeys.length - m.header.numReadonlyUnsignedAccounts) := if_pos hu
  simp only [isWritableIndex, hsub, husub, some_bind, Option.pure_def]
  split_ifs with h₁ h₂
  · simp [h₁]
  · simp [h₁, h₂]
  · simp [h₁, h₂]

lemma isWritable_eq_true : m.isWritable i = some true ↔ m.isWritableIndex i = some true ∧
      ∃ key, m.accountKeys[i]? = some key ∧ isSysvarId key = false ∧ key ∉ builtinProgramsKeys ∧
        (m.isKeyCalledAsProgram i = true → bpfLoaderUpgradeableId ∈ m.accountKeys) := by
  simp only [isWritable, bind_eq_some, isUpgradeableLoaderPresent]
  constructor
  · rintro ⟨b, hb, h⟩
    cases b with
    | false => simp at h
    | true =>
      simp only [if_true, bind_eq_some] at h
      obtain ⟨key, hkey, h⟩ := h
      refine ⟨hb, key, hkey, ?_⟩
      simp at h
      refine ⟨h.1.1, h.1.2, fun hcalled ↦ ?_⟩
      simpa [hcalled] using h.2
  rintro ⟨hindex, key, hkey, hsysvar, hbuiltin, hprogram⟩
  refine ⟨true, hindex, ?_⟩
  simp only [if_true, bind_eq_some]
  refine ⟨key, hkey, ?_⟩
  cases hcalled : m.isKeyCalledAsProgram i with
  | false => simp [hsysvar, hbuiltin]
  | true => simp [hsysvar, hbuiltin, hprogram hcalled]

lemma exists_getElem?_iff_mem {l : List Pubkey} {a b c : ℕ} :
    (∃ i, l[i]? = some key ∧ (i < a ∨ b ≤ i ∧ i < c)) ↔
      key ∈ l.take a ∨ key ∈ (l.take c).drop b := by
  simp only [mem_iff_getElem?, getElem?_drop, getElem?_take]
  constructor
  · rintro ⟨i, hi, h | ⟨hb, hc⟩⟩
    · exact .inl ⟨i, by rw [if_pos h, hi]⟩
    · exact .inr ⟨i - b, by rw [Nat.add_sub_cancel' hb, if_pos hc, hi]⟩
  rintro (⟨i, hi⟩ | ⟨i, hi⟩)
  · split_ifs at hi with h
    exact ⟨i, hi, .inl h⟩
  split_ifs at hi with h
  exact ⟨b + i, hi, .inr ⟨Nat.le_add_right b i, h⟩⟩

section

variable {blockhash : Hash}

section

variable (h : newWithBlockhash instructions payer blockhash = some m)

include h

lemma newWithBlockhash_eq_some (hmetas : requestedMetas instructions payer = metas) :
    m.accountKeys = writableSigners metas ++ readonlySigners metas ++
        (writableNonSigners metas ++ readonlyNonSigners metas) ∧
      m.header = ⟨(writableSigners metas ++ readonlySigners metas).length % 2 ^ 8,
        (readonlySigners metas).countP fun key ↦ !writes metas key,
        (readonlyNonSigners metas).length⟩ ∧
      compileInstructions instructions m.accountKeys = some m.instructions := by
  simp only [newWithBlockhash, bind_eq_some, pure_eq_some] at h
  obtain ⟨keys, hkeys, compiled, hcompiled, rfl⟩ := h
  rw [getKeys_eq hkeys hmetas] at hcompiled ⊢
  exact ⟨rfl, rfl, hcompiled⟩

lemma mem_accountKeys_iff : key ∈ m.accountKeys ↔
      key ∈ (requestedMetas instructions payer).map pubkey := by
  rw [(newWithBlockhash_eq_some h rfl).1, ← eraseDups_sortMetas, mem_eraseDups, mem_map, mem_map]
  simp only [mem_sortMetas]

lemma nodup_accountKeys : m.accountKeys.Nodup := by
  rw [(newWithBlockhash_eq_some h rfl).1, ← eraseDups_sortMetas]
  exact nodup_eraseDups _

lemma length_accountKeys : m.accountKeys.length =
      ((requestedMetas instructions payer).map pubkey).toFinset.card := by
  rw [← toFinset_card_of_nodup (nodup_accountKeys h)]
  congr 1
  ext key
  rw [mem_toFinset, mem_toFinset, mem_accountKeys_iff h]

section

variable (hmetas : requestedMetas instructions payer = metas)
  (hsigned : (writableSigners metas ++ readonlySigners metas).length < 2 ^ 8)

include hmetas hsigned

/-- The signers of a message are the keys that some meta marks so. -/
theorem signerKey_iff : m.SignerKey key ↔ signs metas key = true := by
  obtain ⟨hkeys, hheader, -⟩ := newWithBlockhash_eq_some h hmetas
  have hmem : m.SignerKey key ↔ key ∈ writableSigners metas ++ readonlySigners metas := by
    simp only [SignerKey, isSigner, hheader, Nat.mod_eq_of_lt hsigned, hkeys, decide_eq_true_eq,
      mem_iff_getElem?]
    constructor
    · rintro ⟨i, hi, hlt⟩
      exact ⟨i, by rw [← hi, List.getElem?_append_left hlt]⟩
    rintro ⟨i, hi⟩
    have hlt := (List.getElem?_eq_some_iff.mp hi).1
    exact ⟨i, by rw [List.getElem?_append_left hlt, hi], hlt⟩
  rw [hmem, mem_append, mem_writableSigners, mem_readonlySigners, signs_iff_mem_keysWith]
  by_cases hw : key ∈ keysWith metas true true <;> simp [hw]

/-- The writable segments of a message hold the keys whose first claim is to one of them, and the
misplaced keys. -/
theorem writableSegment_iff : m.WritableSegment key ↔
      key ∈ writableSigners metas ∨ key ∈ misplacedKeys metas ∨ key ∈ writableNonSigners metas := by
  obtain ⟨hkeys, hheader, -⟩ := newWithBlockhash_eq_some h hmetas
  have hcount := length_eq_countP_add_countP (writes metas) (l := readonlySigners metas)
  simp only [Bool.not_eq_true, Bool.decide_eq_false] at hcount
  have hlength := congrArg length hkeys
  simp only [length_append] at hlength
  have hreq : m.header.numRequiredSignatures =
      (writableSigners metas ++ readonlySigners metas).length := by
    rw [hheader]
    exact Nat.mod_eq_of_lt hsigned
  have hros : m.header.numReadonlySignedAccounts =
      (readonlySigners metas).countP fun key ↦ !writes metas key := by rw [hheader]
  have hrou : m.header.numReadonlyUnsignedAccounts = (readonlyNonSigners metas).length := by
    rw [hheader]
  -- by the header, the writable signers end after as many keys as are promoted
  have hfirst : m.accountKeys.take (m.header.numRequiredSignatures -
      m.header.numReadonlySignedAccounts) = writableSigners metas ++ misplacedKeys metas := by
    have hnum : m.header.numRequiredSignatures - m.header.numReadonlySignedAccounts =
        (writableSigners metas).length + (readonlySigners metas).countP (writes metas) := by
      rw [hreq, hros, length_append]
      omega
    rw [hnum, hkeys, append_assoc, take_length_add_append,
      take_append_of_le_length countP_le_length, misplacedKeys]
  have hsecond : (m.accountKeys.take (m.accountKeys.length -
      m.header.numReadonlyUnsignedAccounts)).drop m.header.numRequiredSignatures =
        writableNonSigners metas := by
    have hnum : m.accountKeys.length - m.header.numReadonlyUnsignedAccounts =
        (writableSigners metas ++ readonlySigners metas).length +
          (writableNonSigners metas).length := by
      rw [hrou, hlength, length_append]
      omega
    rw [hnum, hreq, hkeys, take_length_add_append, drop_left, take_left]
  have hs : m.header.numReadonlySignedAccounts ≤ m.header.numRequiredSignatures := by
    rw [hreq, hros, length_append]
    omega
  have hu : m.header.numReadonlyUnsignedAccounts ≤ m.accountKeys.length := by
    rw [hrou, hlength]
    omega
  simp only [WritableSegment, isWritableIndex_eq_true hs hu]
  rw [exists_getElem?_iff_mem, hfirst, hsecond, mem_append, or_assoc]

end

lemma isKeyCalledAsProgram_iff (hlen : m.accountKeys.length ≤ 2 ^ 8)
    (hi : m.accountKeys[i]? = some key) :
    m.isKeyCalledAsProgram i = true ↔ ∃ ix ∈ instructions, ix.programId = key := by
  have hcompiled : instructions.mapM (compileInstruction · m.accountKeys) = some m.instructions :=
    (newWithBlockhash_eq_some h rfl).2.2
  obtain ⟨hilt, hikey⟩ := List.getElem?_eq_some_iff.mp hi
  -- the position of a program id among the keys is its only one
  have hpos : ∀ ix compiled, compileInstruction ix m.accountKeys = some compiled →
      (compiled.programIdIndex = i ↔ ix.programId = key) := by
    intro ix compiled hix
    simp only [compileInstruction, position, bind_eq_some, Option.map_eq_some_iff,
      pure_eq_some] at hix
    obtain ⟨_, -, _, ⟨j, hj, rfl⟩, rfl⟩ := hix
    obtain ⟨hjlt, hjkey, -⟩ := findIdx?_eq_some_iff_getElem.mp hj
    rw [decide_eq_true_eq] at hjkey
    show j % 2 ^ 8 = i ↔ _
    rw [Nat.mod_eq_of_lt (hjlt.trans_le hlen), ← hjkey, ← hikey]
    exact ((nodup_accountKeys h).getElem_inj_iff).symm
  rw [isKeyCalledAsProgram, Bool.and_eq_true, decide_eq_true_eq, any_eq_true,
    and_iff_right (hilt.trans_le hlen)]
  simp only [beq_iff_eq]
  constructor
  · rintro ⟨compiled, hmem, hindex⟩
    obtain ⟨ix, hix, hc⟩ := (mem_iff_of_mapM_eq_some hcompiled).mp hmem
    exact ⟨ix, hix, (hpos ix compiled hc).mp hindex⟩
  rintro ⟨ix, hix, hkey⟩
  obtain ⟨compiled, hc⟩ := exists_of_mapM_eq_some hcompiled hix
  exact ⟨compiled, (mem_iff_of_mapM_eq_some hcompiled).mpr ⟨ix, hix, hc⟩,
    (hpos ix compiled hc).mpr hkey⟩

/-- The writable keys of a message: those of the writable segments that are not demoted. -/
theorem writableKey_iff (hlen : m.accountKeys.length ≤ 2 ^ 8) :
    m.WritableKey key ↔ m.WritableSegment key ∧ ¬ Demoted instructions m.accountKeys key := by
  constructor
  · rintro ⟨i, hi, hw⟩
    obtain ⟨hindex, key', hi', hsysvar, hbuiltin, hprogram⟩ := isWritable_eq_true.mp hw
    obtain rfl : key = key' := Option.some.inj (hi.symm.trans hi')
    refine ⟨⟨i, hi, hindex⟩, ?_⟩
    rintro (hs | hb | ⟨hix, habsent⟩)
    · rw [hsysvar] at hs
      cases hs
    · exact hbuiltin hb
    · exact habsent (hprogram ((isKeyCalledAsProgram_iff h hlen hi).mpr hix))
  rintro ⟨⟨i, hi, hindex⟩, hdemoted⟩
  simp only [Demoted, not_or, not_and, not_not] at hdemoted
  refine ⟨i, hi, isWritable_eq_true.mpr ⟨hindex, key, hi, ?_, hdemoted.2.1, fun hcalled ↦ ?_⟩⟩
  · exact Bool.not_eq_true _ ▸ hdemoted.1
  · exact hdemoted.2.2 ((isKeyCalledAsProgram_iff h hlen hi).mp hcalled)

end

end

end Message

end Renec
