import Renec.Collections.SortedMap
import Renec.Machine.Exec
import Renec.Sdk.EpochSlots
import Renec.Sdk.Errors
import Renec.Vote.State

/-!
# Authorized voters

Who may vote for a vote account, by epoch (`programs/vote/src/authorized_voters.rs`, and the part of
`VoteState` that uses it). The map has an entry for an epoch in which the voter changes; the voter
of an epoch without an entry is that of the last entry before it.

`VoterHistory.Inv` is what the assertions need: there is an entry at or before the current epoch,
and none after the epoch for which a voter could be set now.
-/

namespace Renec

open SortedMap Exec EpochSchedule

/-- `MAX_ITEMS` of a `CircBuf`. -/
def maxItems : ℕ := 32

/-- A buffer of the last `MAX_ITEMS` items. -/
structure CircBuf (α : Type) where
  buf : Fin maxItems → α
  /-- Where the last item is. -/
  idx : Fin maxItems
  isEmpty : Bool

namespace CircBuf

variable {α : Type}

instance [Inhabited α] : Inhabited (CircBuf α) :=
  ⟨⟨fun _ ↦ default, ⟨maxItems - 1, by decide⟩, true⟩⟩

def append (c : CircBuf α) (item : α) : CircBuf α :=
  let idx := ⟨(c.idx + 1) % maxItems, Nat.mod_lt _ (by decide)⟩
  ⟨Function.update c.buf idx item, idx, false⟩

def last (c : CircBuf α) : Option α := if c.isEmpty then none else some (c.buf c.idx)

end CircBuf

/-- The entries, by epoch. -/
abbrev AuthorizedVoters := SortedMap ℕ Pubkey

variable {m m' : AuthorizedVoters} {v : Pubkey} {e : ℕ}

namespace AuthorizedVoters

section

variable (m : AuthorizedVoters) (epoch : ℕ)

def new (pubkey : Pubkey) : AuthorizedVoters := SortedMap.singleton epoch pubkey

/-- The voter of an epoch, and whether there is an entry for the epoch. -/
def getOrCalculateAuthorizedVoterForEpoch : Option (Pubkey × Bool) :=
  match m.get? epoch with
  | some pubkey => some (pubkey, true)
  -- the voter remains unchanged from the latest epoch before this one
  | none => (m.filterKeys fun k ↦ decide (k < epoch)).last?.map fun e ↦ (e.2, false)

def getAuthorizedVoter : Option Pubkey :=
  (m.getOrCalculateAuthorizedVoterForEpoch epoch).map Prod.fst

def getAndCacheAuthorizedVoterForEpoch : Option Pubkey × AuthorizedVoters :=
  match m.getOrCalculateAuthorizedVoterForEpoch epoch with
  | some (pubkey, existed) => (some pubkey, if existed then m else m.insert epoch pubkey)
  | none => (none, m)

/-- Remove the entries of epochs before the current one. The map must not become empty. -/
def purgeAuthorizedVoters (currentEpoch : ℕ) : Option AuthorizedVoters :=
  let m := m.filterKeys fun k ↦ decide (currentEpoch ≤ k)
  if m.entries.isEmpty then none else some m

def contains : Bool := (m.get? epoch).isSome

end

/-! ### The voter of an epoch -/

variable {k : ℕ}

/-- The entry that decides on an epoch: the last one that is not after it. -/
def Governs (m : AuthorizedVoters) (e k : ℕ) (v : Pubkey) : Prop :=
  k ≤ e ∧ (k, v) ∈ m.entries ∧ ∀ k' v', (k', v') ∈ m.entries → k' ≤ e → k' ≤ k

lemma last?_filterKeys_eq_some {p : ℕ → Bool}
    (hp : ∀ {k v}, (k, v) ∈ m.entries → (p k = true ↔ k ≤ e)) :
    (m.filterKeys p).last? = some (k, v) ↔ Governs m e k v := by
  simp only [last?_eq_some, mem_filterKeys, Prod.forall]
  constructor
  · rintro ⟨⟨hmem, hk⟩, hmax⟩
    exact ⟨(hp hmem).mp hk, hmem, fun k' v' hk' hle ↦ hmax k' v' ⟨hk', (hp hk').mpr hle⟩⟩
  rintro ⟨hle, hmem, hmax⟩
  exact ⟨⟨hmem, (hp hmem).mpr hle⟩, fun k' v' hk' ↦ hmax k' v' hk'.1 ((hp hk'.1).mp hk'.2)⟩

lemma getOrCalculate_eq_some {existed : Bool} :
    m.getOrCalculateAuthorizedVoterForEpoch e = some (v, existed) ↔
      ∃ k, Governs m e k v ∧ existed = decide (k = e) := by
  unfold getOrCalculateAuthorizedVoterForEpoch
  cases hget : m.get? e with
  | some pubkey =>
    have hmem := get?_eq_some.mp hget
    simp only [Option.some.injEq, Prod.mk.injEq]
    constructor
    · rintro ⟨rfl, rfl⟩
      exact ⟨e, ⟨le_refl e, hmem, fun _ _ _ h ↦ h⟩, by simp⟩
    rintro ⟨k, ⟨hle, hk, hmax⟩, rfl⟩
    obtain rfl : k = e := le_antisymm hle (hmax e pubkey hmem (le_refl e))
    exact ⟨eq_of_mem hmem hk, by simp⟩
  | none =>
    have hnone := get?_eq_none.mp hget
    have hne : ∀ {k v}, (k, v) ∈ m.entries → k ≠ e := fun {k v} hk heq ↦ hnone v (heq ▸ hk)
    simp only [Option.map_eq_some_iff, Prod.exists, Prod.mk.injEq, last?_filterKeys_eq_some
      fun hk ↦ decide_eq_true_iff.trans ⟨le_of_lt, fun hle ↦ lt_of_le_of_ne hle (hne hk)⟩]
    constructor
    · rintro ⟨k, v, h, rfl, rfl⟩
      exact ⟨k, h, (decide_eq_false (hne h.2.1)).symm⟩
    rintro ⟨k, h, rfl⟩
    exact ⟨k, v, h, rfl, (decide_eq_false (hne h.2.1)).symm⟩

/-- The voter of an epoch is the one of the entry that decides on it. -/
theorem getAuthorizedVoter_eq_some : m.getAuthorizedVoter e = some v ↔ ∃ k, Governs m e k v := by
  rw [getAuthorizedVoter, Option.map_eq_some_iff]
  constructor
  · rintro ⟨⟨v', existed⟩, h, rfl⟩
    obtain ⟨k, hk, -⟩ := getOrCalculate_eq_some.mp h
    exact ⟨k, hk⟩
  rintro ⟨k, hk⟩
  exact ⟨(v, _), getOrCalculate_eq_some.mpr ⟨k, hk, rfl⟩, rfl⟩

lemma getAuthorizedVoter_congr (h : ∀ v, (∃ k, Governs m' e k v) ↔ ∃ k, Governs m e k v) :
    m'.getAuthorizedVoter e = m.getAuthorizedVoter e := by
  refine Option.ext fun v ↦ ?_
  rw [getAuthorizedVoter_eq_some, getAuthorizedVoter_eq_some, h]

lemma exists_governs (hmem : (k, v) ∈ m.entries) (hk : k ≤ e) :
    ∃ k' v', Governs m e k' v' ∧ k ≤ k' := by
  obtain ⟨⟨k', v'⟩, hlast⟩ := exists_last?
    (mem_filterKeys (p := fun x ↦ decide (x ≤ e)) |>.mpr ⟨hmem, decide_eq_true hk⟩)
  have hgoverns := (last?_filterKeys_eq_some fun _ ↦ decide_eq_true_iff).mp hlast
  exact ⟨k', v', hgoverns, hgoverns.2.2 k v hmem hk⟩

end AuthorizedVoters

/-! ### The vote state -/

open AuthorizedVoters

/-- `VoteError::TooSoonToReauthorize`, as the error of an instruction. -/
def tooSoonToReauthorize : InstructionError := .custom 5

/-- The fields of the vote state about voters. -/
structure VoterHistory where
  authorizedVoters : AuthorizedVoters
  /-- The voters before, with the range of epochs for which each was set. -/
  priorVoters : CircBuf (Pubkey × ℕ × ℕ)

namespace VoterHistory

/-- The voters of `VoteState::new`. -/
def new (epoch : ℕ) (authorizedVoter : Pubkey) : VoterHistory :=
  ⟨AuthorizedVoters.new epoch authorizedVoter, default⟩

def getAndUpdateAuthorizedVoter (currentEpoch : ℕ) : Exec VoterHistory InstructionError Pubkey := do
  let s ← get
  let (pubkey, voters) := s.authorizedVoters.getAndCacheAuthorizedVoterForEpoch currentEpoch
  modify fun s ↦ { s with authorizedVoters := voters }
  let pubkey ← okOr .invalidAccountData pubkey
  let voters ← ofOption (voters.purgeAuthorizedVoters currentEpoch)
  modify fun s ↦ { s with authorizedVoters := voters }
  return pubkey

/-- The range of the voter that expires, unless it is set again. -/
def appendPriorVoter (s : VoterHistory) (authorizedPubkey : Pubkey) (targetEpoch : ℕ)
    (latest : ℕ × Pubkey) : Option VoterHistory :=
  if latest.2 ≠ authorizedPubkey then
    let epochOfLastAuthorizedSwitch := (s.priorVoters.last.map fun range ↦ range.2.2).getD 0
    -- the assertion that the target epoch is later than the last one
    if targetEpoch > latest.1 then
      some { s with
        priorVoters := s.priorVoters.append (latest.2, epochOfLastAuthorizedSwitch, targetEpoch) }
    else none
  else some s

variable (authorizedPubkey : Pubkey)

/-- The end of `set_new_authorized_voter`, after the current voter has agreed. -/
def insertAuthorizedVoter (targetEpoch : ℕ) : Exec VoterHistory InstructionError Unit := do
  let s ← get
  failIf (s.authorizedVoters.contains targetEpoch) tooSoonToReauthorize
  let latest ← okOr .invalidAccountData s.authorizedVoters.last?
  let s ← ofOption (s.appendPriorVoter authorizedPubkey targetEpoch latest)
  modify fun _ ↦
    { s with authorizedVoters := s.authorizedVoters.insert targetEpoch authorizedPubkey }

def setNewAuthorizedVoter (currentEpoch targetEpoch : ℕ)
    (verify : Pubkey → Except InstructionError Unit) : Exec VoterHistory InstructionError Unit := do
  let epochAuthorizedVoter ← getAndUpdateAuthorizedVoter currentEpoch
  match verify epochAuthorizedVoter with
  | .error e => throw e
  | .ok () => insertAuthorizedVoter authorizedPubkey targetEpoch

def voter (s : VoterHistory) (epoch : ℕ) : Option Pubkey :=
  s.authorizedVoters.getAuthorizedVoter epoch

/-! ### Caching and purging -/

variable {s s' : VoterHistory}

section

variable {current k k₀ : ℕ} {v₀ : Pubkey}

/-- What caching and purging leave: the voter of the current epoch and the entries after it. -/
def IsUpdated (m : AuthorizedVoters) (current : ℕ) (v : Pubkey) (m' : AuthorizedVoters) : Prop :=
  ∀ k' v', (k', v') ∈ m'.entries ↔ k' = current ∧ v' = v ∨ current < k' ∧ (k', v') ∈ m.entries

lemma isUpdated_cached (h : Governs m current k v) :
    IsUpdated m current v ((if k = current then m else m.insert current v).filterKeys
      fun x ↦ decide (current ≤ x)) := by
  intro k' v'
  rw [mem_filterKeys, decide_eq_true_eq]
  split_ifs with hk
  · subst hk
    constructor
    · rintro ⟨hmem, hle⟩
      rcases hle.lt_or_eq with hlt | rfl
      · exact .inr ⟨hlt, hmem⟩
      · exact .inl ⟨rfl, eq_of_mem hmem h.2.1⟩
    rintro (⟨rfl, rfl⟩ | ⟨hlt, hmem⟩)
    · exact ⟨h.2.1, le_refl _⟩
    · exact ⟨hmem, hlt.le⟩
  rw [mem_insert]
  constructor
  · rintro ⟨heq | ⟨hne, hmem⟩, hle⟩
    · exact .inl heq
    · exact .inr ⟨lt_of_le_of_ne hle hne.symm, hmem⟩
  rintro (⟨rfl, rfl⟩ | ⟨hlt, hmem⟩)
  · exact ⟨.inl ⟨rfl, rfl⟩, le_refl _⟩
  · exact ⟨.inr ⟨hlt.ne', hmem⟩, hlt.le⟩

/-- An update returns the voter of the current epoch, and the map is not purged empty. -/
theorem getAndUpdateAuthorizedVoter_eq (h : Governs s.authorizedVoters current k v) :
    ∃ m', IsUpdated s.authorizedVoters current v m' ∧
      getAndUpdateAuthorizedVoter current s = some (.ok v, { s with authorizedVoters := m' }) := by
  refine ⟨_, isUpdated_cached h, ?_⟩
  have hupdated := isUpdated_cached h
  have hcached : s.authorizedVoters.getAndCacheAuthorizedVoterForEpoch current =
      (some v, if k = current then s.authorizedVoters else
        s.authorizedVoters.insert current v) := by
    rw [getAndCacheAuthorizedVoterForEpoch, getOrCalculate_eq_some.mpr ⟨k, h, rfl⟩]
    simp only [decide_eq_true_eq]
  set cached := if k = current then s.authorizedVoters else s.authorizedVoters.insert current v
  have hmem : (current, v) ∈ (cached.filterKeys fun x ↦ decide (current ≤ x)).entries :=
    (hupdated current v).mpr (.inl ⟨rfl, rfl⟩)
  have hpurge : cached.purgeAuthorizedVoters current =
      some (cached.filterKeys fun x ↦ decide (current ≤ x)) := by
    rw [purgeAuthorizedVoters, if_neg]
    rw [List.isEmpty_iff]
    exact List.ne_nil_of_mem hmem
  simp only [getAndUpdateAuthorizedVoter, bind_eq_ok, get_eq_ok, modify_eq_ok,
    okOr_eq_ok, ofOption_eq_ok, pure_eq_ok]
  refine ⟨s, s, ⟨rfl, rfl⟩, (), _, rfl, v, _, ⟨?_, rfl⟩, _, _, ⟨?_, rfl⟩, (), _, rfl, rfl, rfl⟩
  · rw [hcached]
  rw [hcached]
  exact hpurge

lemma IsUpdated.getAuthorizedVoter (h : IsUpdated m current v₀ m') (h₀ : Governs m current k₀ v₀)
    (he : current ≤ e) : m'.getAuthorizedVoter e = m.getAuthorizedVoter e := by
  obtain ⟨hk₀, hmem₀, hmax₀⟩ := h₀
  obtain ⟨k, v, ⟨hle, hmem, hmax⟩, hk⟩ := exists_governs hmem₀ (hk₀.trans he)
  rw [getAuthorizedVoter_eq_some.mpr ⟨k, hle, hmem, hmax⟩, getAuthorizedVoter_eq_some]
  rcases lt_or_ge current k with hlt | hge
  · refine ⟨k, hle, (h k v).mpr (.inr ⟨hlt, hmem⟩), fun k' v' hk' hle' ↦ ?_⟩
    rcases (h k' v').mp hk' with ⟨rfl, -⟩ | ⟨-, hk'⟩
    · exact hlt.le
    · exact hmax k' v' hk' hle'
  -- an entry that decides on `e` and is not after the current epoch decides on that too
  obtain rfl : k = k₀ := le_antisymm (hmax₀ k v hmem hge) hk
  obtain rfl : v = v₀ := eq_of_mem hmem hmem₀
  refine ⟨current, he, (h current v).mpr (.inl ⟨rfl, rfl⟩), fun k' v' hk' hle' ↦ ?_⟩
  rcases (h k' v').mp hk' with ⟨rfl, -⟩ | ⟨hlt, hk'⟩
  · exact le_refl _
  · exact absurd ((hmax k' v' hk' hle').trans hge) (not_le.mpr hlt)

lemma getAuthorizedVoter_insert {target : ℕ} (hlast : ∀ x ∈ m.entries, x.1 < target) :
    getAuthorizedVoter (m.insert target v) e =
      if target ≤ e then some v else m.getAuthorizedVoter e := by
  split_ifs with htarget
  · refine getAuthorizedVoter_eq_some.mpr ⟨target, htarget, mem_insert.mpr (.inl ⟨rfl, rfl⟩),
      fun k' v' hk' _ ↦ ?_⟩
    rcases mem_insert.mp hk' with ⟨rfl, -⟩ | ⟨-, hk'⟩
    · exact le_refl _
    · exact (hlast _ hk').le
  refine getAuthorizedVoter_congr fun w ↦ exists_congr fun k ↦ and_congr_right fun hle ↦ ?_
  have hne : ∀ {k'}, k' ≤ e → k' ≠ target := fun hle' heq ↦ htarget (heq ▸ hle')
  have hmem : ∀ {k' v'}, k' ≤ e → ((k', v') ∈ (m.insert target v).entries ↔ (k', v') ∈ m.entries) :=
    fun hle' ↦ by
      rw [mem_insert]
      simp [hne hle']
  refine and_congr (hmem hle) (forall₂_congr fun k' v' ↦ ?_)
  constructor
  · exact fun hmax hk' hle' ↦ hmax ((hmem hle').mpr hk') hle'
  · exact fun hmax hk' hle' ↦ hmax ((hmem hle').mp hk') hle'

end

/-! ### The map and the clock -/

/-- There is an entry at or before the epoch, and none after the one for which a voter could be
set. -/
structure Inv (m : AuthorizedVoters) (epoch leaderScheduleEpoch : ℕ) : Prop where
  exists_le : ∃ k v, (k, v) ∈ m.entries ∧ k ≤ epoch
  le_target : ∀ x ∈ m.entries, x.1 ≤ leaderScheduleEpoch + 1

/-- After an operation, the entries are also not before the epoch. -/
structure Current (m : AuthorizedVoters) (epoch leaderScheduleEpoch : ℕ) : Prop
    extends Inv m epoch leaderScheduleEpoch where
  epoch_le : ∀ x ∈ m.entries, epoch ≤ x.1

variable {sched : EpochSchedule} {l : ℕ}

section

variable {slot slot' e' l' : ℕ}

lemma Current.length_le (h : Current m e l) (hl : l ≤ e + 1) : m.entries.length ≤ 3 := by
  have hmem : ∀ x ∈ m.entries, x.1 ∈ Finset.Icc e (e + 2) := by
    intro x hx
    have := h.epoch_le x hx
    have := h.le_target x hx
    rw [Finset.mem_Icc]
    omega
  refine (length_entries_le hmem).trans ?_
  rw [Nat.card_Icc]
  omega

lemma Inv.mono (h : Inv m e l) (he : e ≤ e') (hl : l ≤ l') : Inv m e' l' := by
  obtain ⟨k, v, hmem, hk⟩ := h.exists_le
  exact ⟨⟨k, v, hmem, hk.trans he⟩, fun x hx ↦ (h.le_target x hx).trans (Nat.add_le_add_right hl 1)⟩

lemma Inv.current_of_isUpdated (h : Inv m e l) (hl : e ≤ l) (hm : IsUpdated m e v m') :
    Current m' e l := by
  have hmem : (e, v) ∈ m'.entries := (hm e v).mpr (.inl ⟨rfl, rfl⟩)
  refine ⟨⟨⟨e, v, hmem, le_refl e⟩, ?_⟩, ?_⟩
  · rintro ⟨k', v'⟩ hk'
    rcases (hm k' v').mp hk' with ⟨rfl, -⟩ | ⟨-, hk'⟩
    · exact hl.trans (Nat.le_add_right _ _)
    · exact h.le_target _ hk'
  rintro ⟨k', v'⟩ hk'
  rcases (hm k' v').mp hk' with ⟨rfl, -⟩ | ⟨hlt, -⟩
  · exact le_refl _
  · exact hlt.le

lemma Current.insert (h : Current m e l) (hl : e ≤ l) : Current (m.insert (l + 1) v) e l := by
  obtain ⟨k, w, hmem, hk⟩ := h.exists_le
  have hentries : ∀ x ∈ (m.insert (l + 1) v).entries, x.1 = l + 1 ∨ x ∈ m.entries := by
    rintro ⟨k', v'⟩ hx
    exact (mem_insert.mp hx).imp And.left And.right
  refine ⟨⟨⟨k, w, mem_insert.mpr (.inr ⟨by omega, hmem⟩), hk⟩, fun x hx ↦ ?_⟩, fun x hx ↦ ?_⟩
  · rcases hentries x hx with heq | hx
    · exact heq.le
    · exact h.le_target x hx
  rcases hentries x hx with heq | hx
  · omega
  · exact h.epoch_le x hx

end

/-! ### One operation -/

/-- Updates succeed, and leave every voter from the current epoch on. -/
theorem getAndUpdateAuthorizedVoter_spec (h : Inv s.authorizedVoters e l) (hl : e ≤ l) :
    ∃ v s', getAndUpdateAuthorizedVoter e s = some (.ok v, s') ∧ s.voter e = some v ∧
      Current s'.authorizedVoters e l ∧ ∀ epoch, e ≤ epoch → s'.voter epoch = s.voter epoch := by
  obtain ⟨k₀, v₀, hmem, hle⟩ := h.exists_le
  obtain ⟨k, v, hgoverns, -⟩ := exists_governs hmem hle
  obtain ⟨m', hupdated, hrun⟩ := getAndUpdateAuthorizedVoter_eq hgoverns
  exact ⟨v, _, hrun, getAuthorizedVoter_eq_some.mpr ⟨k, hgoverns⟩,
    h.current_of_isUpdated hl hupdated,
      fun epoch hepoch ↦ hupdated.getAuthorizedVoter hgoverns hepoch⟩

lemma insertAuthorizedVoter_spec (key : Pubkey) (h : Current s.authorizedVoters e l) (hl : e ≤ l) :
    ∃ r s', insertAuthorizedVoter key (l + 1) s = some (r, s') ∧ Current s'.authorizedVoters e l ∧
      ∀ epoch, e ≤ epoch → s'.voter epoch =
        if r = .ok () ∧ l + 1 ≤ epoch then some key else s.voter epoch := by
  cases hget : s.authorizedVoters.get? (l + 1) with
  | some v =>
    have hcontains : s.authorizedVoters.contains (l + 1) = true := by
      rw [contains, hget]
      rfl
    refine ⟨.error tooSoonToReauthorize, s, ?_, h, fun epoch _ ↦ (if_neg (by simp)).symm⟩
    rw [insertAuthorizedVoter, bind_of_ok (get_eq_ok.mpr ⟨rfl, rfl⟩)]
    refine bind_of_error ?_
    rw [hcontains]
    rfl
  | none =>
    have hcontains : s.authorizedVoters.contains (l + 1) = false := by
      rw [contains, hget]
      rfl
    have hlast : ∀ x ∈ s.authorizedVoters.entries, x.1 < l + 1 := by
      rintro ⟨k, v⟩ hx
      refine lt_of_le_of_ne (h.le_target _ hx) ?_
      rintro (rfl : k = l + 1)
      exact get?_eq_none.mp hget v hx
    obtain ⟨k, v, hmem, -⟩ := h.exists_le
    obtain ⟨latest, hlatest⟩ := exists_last? hmem
    have hlt : latest.1 < l + 1 := hlast _ (last?_eq_some.mp hlatest).1
    obtain ⟨s₁, hprior, hvoters⟩ : ∃ s₁, s.appendPriorVoter key (l + 1) latest = some s₁ ∧
        s₁.authorizedVoters = s.authorizedVoters := by
      rw [appendPriorVoter]
      split_ifs
      · exact ⟨_, rfl, rfl⟩
      · exact ⟨_, rfl, rfl⟩
    refine ⟨.ok (), { s₁ with authorizedVoters := s₁.authorizedVoters.insert (l + 1) key }, ?_, ?_,
      fun epoch _ ↦ ?_⟩
    · simp only [insertAuthorizedVoter, bind_eq_ok, get_eq_ok, modify_eq_ok,
        okOr_eq_ok, ofOption_eq_ok, failIf_eq_ok]
      exact ⟨s, s, ⟨rfl, rfl⟩, (), s, ⟨hcontains, rfl⟩, latest, s, ⟨hlatest, rfl⟩, s₁, s,
        ⟨hprior, rfl⟩, rfl⟩
    · show Current (s₁.authorizedVoters.insert (l + 1) key) e l
      rw [hvoters]
      exact h.insert hl
    show AuthorizedVoters.getAuthorizedVoter (s₁.authorizedVoters.insert (l + 1) key) epoch = _
    rw [hvoters, getAuthorizedVoter_insert hlast]
    simp only [true_and]
    rfl

/-- Setting a voter does not panic, and changes the voters from the target epoch on, or none. -/
theorem setNewAuthorizedVoter_spec (key : Pubkey)
    (verify : Pubkey → Except InstructionError Unit) (h : Inv s.authorizedVoters e l) (hl : e ≤ l) :
    ∃ r s', setNewAuthorizedVoter key e (l + 1) verify s = some (r, s') ∧
      Current s'.authorizedVoters e l ∧ ∀ epoch, e ≤ epoch → s'.voter epoch =
        if r = .ok () ∧ l + 1 ≤ epoch then some key else s.voter epoch := by
  obtain ⟨v, s₁, hupdate, -, hcurrent, hvoter⟩ := getAndUpdateAuthorizedVoter_spec h hl
  have hbind : setNewAuthorizedVoter key e (l + 1) verify s =
      (match verify v with
      | .error e => throw e
      | .ok () => insertAuthorizedVoter key (l + 1) : Exec VoterHistory InstructionError Unit) s₁ :=
    bind_of_ok hupdate
  rw [hbind]
  cases verify v with
  | error err =>
    exact ⟨_, s₁, rfl, hcurrent, fun epoch hepoch ↦ by rw [hvoter epoch hepoch, if_neg (by simp)]⟩
  | ok u =>
    obtain ⟨r, s', hinsert, hcurrent', hvoter'⟩ := insertAuthorizedVoter_spec key hcurrent hl
    exact ⟨r, s', hinsert, hcurrent', fun epoch hepoch ↦ by
      rw [hvoter' epoch hepoch, hvoter epoch hepoch]⟩

/-! ### Runs -/

section

/-- The voters of a vote account after some operations, the last of them at a clock with the given
slot, epoch and leader schedule epoch. A new voter is set for the epoch after the leader schedule
epoch; an operation that returns an error leaves what it has changed. -/
inductive Reached (sched : EpochSchedule) : (slot epoch leaderScheduleEpoch : ℕ) →
  VoterHistory → Prop
  /-- A new vote account. -/
  | new {slot e l : ℕ} (voter : Pubkey) (hclock : sched.ClockAt slot e l) :
    Reached sched slot e l (VoterHistory.new e voter)
  /-- `get_and_update_authorized_voter`, as every vote does. -/
  | update {slot e l slot' e' l' : ℕ} {s s' : VoterHistory} {r : Except InstructionError Pubkey}
    (hs : Reached sched slot e l s) (hslot : slot ≤ slot') (hclock : sched.ClockAt slot' e' l')
    (hrun : getAndUpdateAuthorizedVoter e' s = some (r, s')) : Reached sched slot' e' l' s'
  /-- `set_new_authorized_voter`, as `authorize` does. -/
  | set {slot e l slot' e' l' : ℕ} {s s' : VoterHistory} {r : Except InstructionError Unit}
    {key : Pubkey} {target : ℕ} {verify : Pubkey → Except InstructionError Unit}
    (hs : Reached sched slot e l s) (hslot : slot ≤ slot') (hclock : sched.ClockAt slot' e' l')
    (htarget : checkedAdd 64 l' 1 = some target)
    (hrun : setNewAuthorizedVoter key e' target verify s = some (r, s')) :
    Reached sched slot' e' l' s'

variable {slot : ℕ}

lemma Reached.clockAt (h : Reached sched slot e l s) : sched.ClockAt slot e l := by
  cases h with
  | new _ hclock | update _ _ hclock _ | set _ _ hclock _ _ => exact hclock

/-- The invariant of the runs. -/
theorem Reached.current (h : Reached sched slot e l s) (hsched : sched.Layout) :
    Current s.authorizedVoters e l := by
  induction h with
  | @new slot e l voter hclock =>
    have hl := hclock.epoch_le hsched
    have hmem : ∀ x ∈ (VoterHistory.new e voter).authorizedVoters.entries, x.1 = e :=
      fun x hx ↦ (mem_singleton.mp hx).1
    refine ⟨⟨⟨e, voter, mem_singleton.mpr ⟨rfl, rfl⟩, le_refl e⟩, fun x hx ↦ ?_⟩,
      fun x hx ↦ (hmem x hx).ge⟩
    rw [hmem x hx]
    exact hl.trans (Nat.le_add_right _ _)
  | update hs hslot hclock hrun ih =>
    obtain ⟨he, hl⟩ := hs.clockAt.mono hsched hclock hslot
    obtain ⟨_, _, hspec, -, hcurrent, -⟩ :=
      getAndUpdateAuthorizedVoter_spec (ih.toInv.mono he hl) (hclock.epoch_le hsched)
    rw [hrun] at hspec
    cases hspec
    exact hcurrent
  | @set _ _ _ _ _ _ _ _ _ key target verify hs hslot hclock htarget hrun ih =>
    obtain ⟨he, hl⟩ := hs.clockAt.mono hsched hclock hslot
    obtain ⟨-, rfl⟩ := checkedAdd_eq_some.mp htarget
    obtain ⟨_, _, hspec, hcurrent, -⟩ := setNewAuthorizedVoter_spec key verify
      (ih.toInv.mono he hl) (hclock.epoch_le hsched)
    rw [hrun] at hspec
    cases hspec
    exact hcurrent

/-- **Authorized voters over every run.** For a schedule whose leader schedule offset is at most an
epoch, the map of a reached vote state has at most three entries; and at every later clock

* an update does not panic, returns the voter of the epoch and leaves the voters of all epochs from
  the current one on;
* setting a voter does not panic; if it succeeds, the new key is the voter from the target epoch on
  and the voters of the epochs before are unchanged, and if it fails all voters are. -/
theorem voters_well_behaved {slotsPerEpoch offset : ℕ} {warmup : Bool}
    (hsched : custom slotsPerEpoch offset warmup = some sched)
    (hoffset : offset ≤ slotsPerEpoch) (h : Reached sched slot e l s) :
    s.authorizedVoters.entries.length ≤ 3 ∧
    ∀ slot' e' l', slot ≤ slot' → sched.ClockAt slot' e' l' →
      (∃ v s', getAndUpdateAuthorizedVoter e' s = some (.ok v, s') ∧ s.voter e' = some v ∧
        s'.authorizedVoters.entries.length ≤ 3 ∧
        ∀ epoch, e' ≤ epoch → s'.voter epoch = s.voter epoch) ∧
      ∃ target, checkedAdd 64 l' 1 = some target ∧
        ∀ key verify, ∃ r s', setNewAuthorizedVoter key e' target verify s = some (r, s') ∧
          s'.authorizedVoters.entries.length ≤ 3 ∧ ∀ epoch, e' ≤ epoch → s'.voter epoch =
            if r = .ok () ∧ target ≤ epoch then some key else s.voter epoch := by
  have hlayout := layout_custom hsched
  replace hoffset := offset_le_custom hsched hoffset
  have hcurrent := h.current hlayout
  refine ⟨hcurrent.length_le (h.clockAt.bounds hlayout hoffset).2.1,
    fun slot' e' l' hslot hclock ↦ ?_⟩
  obtain ⟨he, hl⟩ := h.clockAt.mono hlayout hclock hslot
  obtain ⟨hle, hle', hlt⟩ := hclock.bounds hlayout hoffset
  have hinv := hcurrent.toInv.mono he hl
  constructor
  · obtain ⟨v, s', hrun, hv, hcurrent', hvoter⟩ := getAndUpdateAuthorizedVoter_spec hinv hle
    exact ⟨v, s', hrun, hv, hcurrent'.length_le hle', hvoter⟩
  refine ⟨l' + 1, checkedAdd_eq_some.mpr ⟨hlt, rfl⟩, fun key verify ↦ ?_⟩
  obtain ⟨r, s', hrun, hcurrent', hvoter⟩ := setNewAuthorizedVoter_spec key verify hinv hle
  exact ⟨r, s', hrun, hcurrent'.length_le hle', hvoter⟩

/-- A vote account made in the first epoch of a warm-up, whose new voter votes in the second normal
epoch. -/
theorem voters_well_behaved_warmup : ∃ sched s s', custom 64 64 true = some sched ∧
    setNewAuthorizedVoter ⟨1⟩ 0 2 (fun _ ↦ .ok ()) (VoterHistory.new 0 default) = some (.ok (), s) ∧
    Reached sched 0 0 1 s ∧ sched.ClockAt 100 2 3 ∧
    getAndUpdateAuthorizedVoter 2 s = some (.ok ⟨1⟩, s') ∧
    s'.authorizedVoters.entries.length ≤ 3 := by
  have hsched : custom 64 64 true = some ⟨64, 64, true, 1, 32⟩ := by decide
  have hclock : EpochSchedule.ClockAt ⟨64, 64, true, 1, 32⟩ 0 0 1 :=
    ⟨by decide, by decide, by decide⟩
  have hclock' : EpochSchedule.ClockAt ⟨64, 64, true, 1, 32⟩ 100 2 3 :=
    ⟨by decide, by decide, by decide⟩
  have hset : ∃ s, setNewAuthorizedVoter ⟨1⟩ 0 2 (fun _ ↦ .ok ()) (VoterHistory.new 0 default) =
      some (.ok (), s) ∧ s.voter 2 = some ⟨1⟩ := ⟨_, rfl, by decide⟩
  obtain ⟨s, hset, hvoter⟩ := hset
  have hreached := (Reached.new default hclock).set le_rfl hclock rfl hset
  obtain ⟨-, hlater⟩ := voters_well_behaved hsched (by decide) hreached
  obtain ⟨⟨v, s', hrun, hv, hlength, -⟩, -⟩ := hlater 100 2 3 (by decide) hclock'
  obtain rfl := Option.some.inj (hvoter.symm.trans hv)
  exact ⟨_, s, s', hsched, hset, hreached, hclock', hrun, hlength⟩

end

end VoterHistory

end Renec
