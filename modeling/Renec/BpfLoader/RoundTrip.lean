import Renec.BpfLoader.Serialization

/-!
# Programs edit accounts in place

The two formats as layouts: the bytes of an entry with what a program can edit of it (`Content`),
and the entries one after the other (`Format.layout`).
-/

namespace Renec

open List AlignedMemory Outcome Bincode Exec Pubkey Cells Function Bool

open Bincode (leBytes)

/-! ### Duplicates -/

section

variable {earlier : List KeyedAccount} {keyedAccount : KeyedAccount}

lemma isDup_eq_true : (isDup earlier keyedAccount).1 = true ↔
    ∃ account ∈ earlier, account.key = keyedAccount.key := by
  rw [isDup]
  split
  · next i h =>
    obtain ⟨hlt, hkey, -⟩ := findIdx?_eq_some_iff_getElem.mp h
    exact ⟨fun _ ↦ ⟨_, getElem_mem hlt, beq_iff_eq.mp hkey⟩, fun _ ↦ rfl⟩
  next h =>
  rw [findIdx?_eq_none_iff] at h
  refine ⟨fun h ↦ Bool.noConfusion h, fun ⟨account, hmem, hkey⟩ ↦ ?_⟩
  have hne := h account hmem
  rw [hkey, beq_self_eq_true] at hne
  cases hne

end

/-! ### The layout -/

/-- What a program can edit of an entry. -/
structure Content where
  lamports : ℕ
  owner : Pubkey
  dataLen : ℕ
  /-- The data, with the space for it to grow. -/
  space : List UInt8

structure Format where
  /-- The entries start at multiples of this number. -/
  align : ℕ
  /-- The space for data to grow. -/
  growth : ℕ
  entry : KeyedAccount → Account → Content → List UInt8
  dup : ℕ → List UInt8

namespace Format

variable (f : Format) (cells : Cells) (content : ℕ → Content)

def entryBytes (e : List KeyedAccount × KeyedAccount) : List UInt8 :=
  if (isDup e.1 e.2).1 then f.dup (isDup e.1 e.2).2
  else f.entry e.2 (cells e.2.index) (content e.2.index)

end Format

open Format

variable {v : AlignedMemory}

namespace AlignedMemory

end AlignedMemory

variable {bytes : List KeyedAccount × KeyedAccount → List UInt8}
  {write : AlignedMemory → List KeyedAccount × KeyedAccount →
    Outcome InstructionError AlignedMemory}

variable {f : Format}

variable {cells : Cells} {content : ℕ → Content}

section

variable (keyedAccount : KeyedAccount) (account : Account) (content : Content)

end

section

variable (v : AlignedMemory) (e : List KeyedAccount × KeyedAccount)

end

variable {buffer : List UInt8}

section

variable {rest : List UInt8} {p x : ℕ}

end

/-- The contents keep to the space of their entries. -/
structure Content.Fits (f : Format) (account : Account) (content : Content) : Prop where
  lamports_lt : content.lamports < 2 ^ 64
  dataLen_lt : content.dataLen < 2 ^ 64
  length_space : content.space.length = account.data.length + f.growth

/-- What a reader does with one entry of a buffer: it goes to the end of the entry, and it stores
the contents or rejects them, having stored a part. -/
structure Reads (f : Format) (cells : Cells) (content : ℕ → Content) (buffer : List UInt8)
    (read : ℕ → (List KeyedAccount × KeyedAccount) × ℕ → Exec Cells InstructionError ℕ)
    (accepts : ℕ → Prop) (store storePart : ℕ → Account → Account) : Prop where
  dup : ∀ start e len now, (isDup e.1 e.2).1 = true →
    read start (e, len) now = some (.ok (start + (f.dup (isDup e.1 e.2).2).length), now)
  entry : ∀ start e now behind, (isDup e.1 e.2).1 = false → f.align ∣ start →
    buffer.RestAt start (f.entry e.2 (cells e.2.index) (content e.2.index) ++ behind) →
    now e.2.index = cells e.2.index → (content e.2.index).Fits f (cells e.2.index) →
    (accepts e.2.index → read start (e, (cells e.2.index).data.length) now = some
      (.ok (start + (f.entry e.2 (cells e.2.index) (content e.2.index)).length),
        now.modify e.2.index (store e.2.index))) ∧
    (¬ accepts e.2.index → read start (e, (cells e.2.index).data.length) now = some
      (.error .invalidRealloc, now.modify e.2.index (storePart e.2.index)))

/-- The accounts after the entries of some keyed accounts were stored. -/
def Cells.stored (cells : Cells) (store : ℕ → Account → Account) (l : List KeyedAccount) : Cells :=
  fun index ↦ if index ∈ l.map KeyedAccount.index then store index (cells index) else cells index

/-- Keyed accounts refer to one account exactly if they have one key. -/
def OneCellAKey (l : List KeyedAccount) : Prop :=
  ∀ a ∈ l, ∀ b ∈ l, a.key = b.key ↔ a.index = b.index

instance : DecidablePred OneCellAKey := fun l ↦
  inferInstanceAs (Decidable (∀ a ∈ l, ∀ b ∈ l, a.key = b.key ↔ a.index = b.index))

variable {read : ℕ → (List KeyedAccount × KeyedAccount) × ℕ → Exec Cells InstructionError ℕ}
  {storePart : ℕ → Account → Account}

section

variable {cells : Cells} {content : ℕ → Content} {accepts : ℕ → Prop}
  {store : ℕ → Account → Account} {earlier rest : List KeyedAccount} {k : KeyedAccount}

lemma OneCellAKey.isDup_iff (h : OneCellAKey (earlier ++ k :: rest)) :
    (isDup earlier k).1 = true ↔ k.index ∈ earlier.map KeyedAccount.index := by
  rw [isDup_eq_true, mem_map]
  refine exists_congr fun a ↦ and_congr_right fun ha ↦ ?_
  exact h a (mem_append_left _ ha) k (mem_append_right _ mem_cons_self)

lemma Cells.stored_of_mem (h : k.index ∈ earlier.map KeyedAccount.index) :
    cells.stored store (earlier ++ [k]) = cells.stored store earlier := by
  funext index
  rw [stored, stored, map_append]
  refine if_congr ?_ rfl rfl
  rw [mem_append, map_singleton, mem_singleton]
  exact ⟨fun hmem ↦ hmem.elim id fun heq ↦ heq ▸ h, .inl⟩

lemma Cells.stored_of_not_mem (h : k.index ∉ earlier.map KeyedAccount.index) :
    (cells.stored store earlier).modify k.index (store k.index) =
      cells.stored store (earlier ++ [k]) := by
  funext index
  have hsingle : index ∈ (earlier ++ [k]).map KeyedAccount.index ↔
      index ∈ earlier.map KeyedAccount.index ∨ index = k.index := by
    rw [map_append, mem_append, map_singleton, mem_singleton]
  by_cases heq : index = k.index
  · subst heq
    rw [modify, update_self, stored, stored, if_neg h, if_pos (hsingle.mpr (.inr rfl))]
  rw [modify, update_of_ne heq, stored, stored]
  refine if_congr ?_ rfl rfl
  rw [hsingle]
  exact ⟨.inl, fun hmem ↦ hmem.resolve_right heq⟩

lemma Reads.step (h : Reads f cells content buffer read accepts store storePart)
    {start : ℕ} {behind : List UInt8} (hcells : OneCellAKey (earlier ++ k :: rest))
    (hfits : (content k.index).Fits f (cells k.index))
    (haccepted : ∀ k ∈ earlier, accepts k.index)
    (hbuffer : buffer.RestAt start (f.entryBytes cells content (earlier, k) ++ behind))
    (hstart : f.align ∣ start) :
    (accepts k.index →
      read start ((earlier, k), (cells k.index).data.length) (cells.stored store earlier) = some
        (.ok (start + (f.entryBytes cells content (earlier, k)).length),
          cells.stored store (earlier ++ [k]))) ∧
    (¬ accepts k.index →
      read start ((earlier, k), (cells k.index).data.length) (cells.stored store earlier) = some
        (.error .invalidRealloc,
          (cells.stored store earlier).modify k.index (storePart k.index))) := by
  rw [entryBytes] at hbuffer ⊢
  split_ifs at hbuffer ⊢ with hdup
  · have hmem := hcells.isDup_iff.mp hdup
    rw [stored_of_mem hmem]
    refine ⟨fun _ ↦ h.dup start (earlier, k) _ _ hdup, fun hk ↦ absurd ?_ hk⟩
    obtain ⟨a, ha, hindex⟩ := mem_map.mp hmem
    exact hindex ▸ haccepted a ha
  have hmem : k.index ∉ earlier.map KeyedAccount.index := fun hmem ↦
    hdup (hcells.isDup_iff.mpr hmem)
  rw [← stored_of_not_mem hmem]
  exact h.entry start (earlier, k) _ behind (not_eq_true _ ▸ hdup) hstart hbuffer
    (if_neg hmem) hfits

/-- The loop of a reader. If all contents are accepted, all are stored; otherwise it ends with the
first that is not. -/
theorem Reads.run (h : Reads f cells content buffer read accepts store storePart)
    (halign : ∀ k ∈ rest, ∀ earlier, f.align ∣ (f.entryBytes cells content (earlier, k)).length)
    {start : ℕ} {behind : List UInt8} (hcells : OneCellAKey (earlier ++ rest))
    (hfits : ∀ k ∈ rest, (content k.index).Fits f (cells k.index))
    (haccepted : ∀ k ∈ earlier, accepts k.index)
    (hbuffer : buffer.RestAt start
      ((withEarlier earlier rest).flatMap (f.entryBytes cells content) ++ behind))
    (hstart : f.align ∣ start) :
    ((∀ k ∈ rest, accepts k.index) → ∃ stop,
      ((withEarlier earlier rest).zip (rest.map fun k ↦ (cells k.index).data.length)).foldlM read
        start (cells.stored store earlier) =
        some (.ok stop, cells.stored store (earlier ++ rest))) ∧
    ((∃ k ∈ rest, ¬ accepts k.index) → ∃ done index,
      ((withEarlier earlier rest).zip (rest.map fun k ↦ (cells k.index).data.length)).foldlM read
        start (cells.stored store earlier) =
        some (.error .invalidRealloc,
          (cells.stored store done).modify index (storePart index))) := by
  induction rest generalizing earlier start with
  | nil =>
    refine ⟨fun _ ↦ ⟨start, ?_⟩, fun ⟨k, hk, _⟩ ↦ absurd hk not_mem_nil⟩
    rw [append_nil]
    rfl
  | cons k rest ih =>
    rw [withEarlier, map_cons, zip_cons_cons, foldlM_cons]
    have hassoc : earlier ++ [k] ++ rest = earlier ++ k :: rest := by
      rw [append_assoc, singleton_append]
    rw [withEarlier, flatMap_cons, append_assoc] at hbuffer
    have ih' := fun haccepts ↦ @ih (earlier ++ [k])
      (fun a ha ↦ halign a (mem_cons_of_mem k ha)) _ (hassoc ▸ hcells)
      (fun a ha ↦ hfits a (mem_cons_of_mem k ha)) haccepts (hbuffer.skip rfl)
      (Nat.dvd_add hstart (halign k mem_cons_self earlier))
    rw [hassoc] at ih'
    obtain ⟨hok, herror⟩ := h.step hcells (hfits k mem_cons_self) haccepted hbuffer hstart
    by_cases hk : accepts k.index
    · obtain ⟨hall, hsome⟩ := ih' (forall_mem_append.mpr ⟨haccepted, forall_mem_singleton.mpr hk⟩)
      rw [bind_of_ok (hok hk)]
      refine ⟨fun hrest ↦ hall fun a ha ↦ hrest a (mem_cons_of_mem k ha), ?_⟩
      rintro ⟨a, ha, hrejected⟩
      refine hsome ⟨a, (mem_cons.mp ha).resolve_left fun heq ↦ hrejected ?_, hrejected⟩
      rwa [heq]
    exact ⟨fun hall ↦ absurd (hall k mem_cons_self) hk,
      fun _ ↦ ⟨earlier, k.index, bind_of_error (herror hk)⟩⟩

end

/-! ### The readers of the two formats -/

section

variable (content : Content) (account : Account)

end

variable {account : Account}

section

variable {keyedAccounts : List KeyedAccount} {cells : Cells} {content : ℕ → Content}
  {programId : Pubkey} {instructionData : List UInt8}

end

end Renec
