import Renec.Stake.Rewards
import Renec.Vote.LockoutStack

/-!
# Every credit is redeemed once

The credits of a vote account are numbered by the calls of `incrementCredits` that earned them, and
the call says the epoch of its credit.
-/

namespace Renec

open List VoteState Nat

variable {epochs : List Epoch} {entries first second : List (Epoch × ℕ × ℕ)} {epoch : Epoch}
  {start finish : ℕ}

/-! ### Ledgers -/

/-- The entries cover the credits above `start` up to `finish` without a gap, each with credits of
its own epoch. Credit `c` was earned by the call at position `c - 1`. -/
def Ledger (epochs : List Epoch) (start : ℕ) : List (Epoch × ℕ × ℕ) → ℕ → Prop
  | [], finish => start = finish
  | (epoch, final, initial) :: entries, finish => initial = start ∧ initial < final ∧
      (∀ c, initial < c → c ≤ final → epochs[c - 1]? = some epoch) ∧
      Ledger epochs final entries finish

variable {final initial : ℕ}

namespace Ledger

lemma append : Ledger epochs start (first ++ second) finish ↔
    ∃ mid, Ledger epochs start first mid ∧ Ledger epochs mid second finish := by
  induction first generalizing start with
  | nil => exact ⟨fun h ↦ ⟨start, rfl, h⟩, fun ⟨_, hstart, h⟩ ↦ (hstart : start = _) ▸ h⟩
  | cons entry first ih =>
    simp only [cons_append, Ledger, ih]
    constructor
    · rintro ⟨hi, hlt, hepoch, mid, hfirst, hsecond⟩
      exact ⟨mid, ⟨hi, hlt, hepoch, hfirst⟩, hsecond⟩
    rintro ⟨mid, ⟨hi, hlt, hepoch, hfirst⟩, hsecond⟩
    exact ⟨hi, hlt, hepoch, mid, hfirst, hsecond⟩

lemma concat : Ledger epochs start (entries ++ [(epoch, final, initial)]) finish ↔
      Ledger epochs start entries initial ∧ initial < final ∧
        (∀ c, initial < c → c ≤ final → epochs[c - 1]? = some epoch) ∧ final = finish := by
  rw [append]
  constructor
  · rintro ⟨_, h, rfl, hlt, hepoch, hfinish⟩
    exact ⟨h, hlt, hepoch, hfinish⟩
  rintro ⟨h, hlt, hepoch, hfinish⟩
  exact ⟨initial, h, rfl, hlt, hepoch, hfinish⟩

lemma extend (h : Ledger epochs start entries finish) :
    Ledger (epochs ++ [epoch]) start entries finish := by
  induction entries generalizing start with
  | nil => exact h
  | cons entry entries ih =>
    refine ⟨h.1, h.2.1, fun c hlt hle ↦ ?_, ih h.2.2.2⟩
    have hc := h.2.2.1 c hlt hle
    rw [List.getElem?_append_left (List.getElem?_eq_some_iff.mp hc).1, hc]

lemma isChain (h : Ledger epochs start entries finish) :
    entries.IsChain fun a b ↦ b.2.2 = a.2.1 := by
  induction entries generalizing start with
  | nil => exact .nil
  | cons entry entries ih =>
    rcases entries with - | ⟨next, entries⟩
    · exact .singleton _
    · exact .cons_cons h.2.2.2.1 (ih h.2.2.2)

lemma start_le (h : Ledger epochs start entries finish) : start ≤ finish := by
  induction entries generalizing start with
  | nil => exact h.le
  | cons entry entries ih => exact h.1.ge.trans (h.2.1.le.trans (ih h.2.2.2))

end Ledger

/-! ### Earning -/

namespace VoteState

variable {s s' : VoteState}

def oldestStart (s : VoteState) : ℕ := (s.epochCredits.head?.map fun entry ↦ entry.2.2).getD 0

/-- The entries after one credit for each call. -/
structure Credited (epochs : List Epoch) (s : VoteState) : Prop where
  length_le : s.epochCredits.length ≤ maxEpochCreditsHistory
  increasing : s.epochCredits.Pairwise fun a b ↦ a.1 < b.1
  ledger : ∃ start, Ledger epochs start s.epochCredits epochs.length
  last_eq : s.epochCredits.getLast?.map Prod.fst = epochs.getLast?
  lt : epochs.length < 2 ^ 64

lemma Credited.ledger_oldestStart (h : Credited epochs s) :
    Ledger epochs s.oldestStart s.epochCredits epochs.length := by
  obtain ⟨start, hledger⟩ := h.ledger
  have hlast := h.last_eq
  unfold oldestStart
  rcases hentries : s.epochCredits with - | ⟨entry, entries⟩
  · rw [hentries] at hlast
    rw [getLast?_eq_none_iff.mp hlast.symm]
    rfl
  rw [hentries] at hledger
  exact ⟨rfl, hledger.2⟩

lemma Credited.credits_eq (h : Credited epochs s) : s.credits = epochs.length := by
  obtain ⟨start, hledger⟩ := h.ledger
  have hlast := h.last_eq
  unfold credits
  rcases s.epochCredits.eq_nil_or_concat with hnil | ⟨init, ⟨e, final, initial⟩, hentries⟩
  · rw [hnil] at hlast ⊢
    rw [getLast?_eq_none_iff.mp hlast.symm]
    rfl
  rw [hentries, concat_eq_append] at hledger ⊢
  rw [getLast?_concat]
  exact (Ledger.concat.mp hledger).2.2.2

variable {init : List (Epoch × ℕ × ℕ)} {e : Epoch}

lemma incrementCredits_of_open {l : List (Epoch × ℕ × ℕ)} {f i : ℕ}
    (hopen : openEpoch s.epochCredits epoch = l ++ [(e, f, i)])
    (h : s.incrementCredits epoch = some s') :
    f + 1 < 2 ^ 64 ∧ s'.epochCredits = l ++ [(e, f + 1, i)] := by
  simp only [incrementCredits, hopen, getLast?_concat, some_bind, bind_eq_some,
    checkedAdd_eq_some, dropLast_concat, pure_eq_some] at h
  obtain ⟨_, ⟨hlt, rfl⟩, rfl⟩ := h
  exact ⟨hlt, rfl⟩

lemma incrementCredits_same {f i : ℕ} (hentries : s.epochCredits = init ++ [(e, f, i)])
    (h : s.incrementCredits e = some s') :
    f + 1 < 2 ^ 64 ∧ s'.epochCredits = init ++ [(e, f + 1, i)] := by
  refine incrementCredits_of_open ?_ h
  simp [openEpoch, hentries]

lemma incrementCredits_new {f i : ℕ} (hentries : s.epochCredits = init ++ [(e, f, i)])
    (hne : epoch ≠ e) (hearned : i < f) (h : s.incrementCredits epoch = some s') :
    f + 1 < 2 ^ 64 ∧ ∃ k, s'.epochCredits = s.epochCredits.drop k ++ [(epoch, f + 1, f)] ∧
      (s.epochCredits.length ≤ maxEpochCreditsHistory →
        s'.epochCredits.length ≤ maxEpochCreditsHistory) := by
  obtain ⟨k, hopen, hlength⟩ : ∃ k,
      openEpoch s.epochCredits epoch = s.epochCredits.drop k ++ [(epoch, f, f)] ∧
        (s.epochCredits.length ≤ maxEpochCreditsHistory →
          (s.epochCredits.drop k).length + 1 ≤ maxEpochCreditsHistory) := by
    have hlast : s.epochCredits.getLast? = some (e, f, i) := by rw [hentries, getLast?_concat]
    have hpos : 1 ≤ s.epochCredits.length := by
      rw [hentries, length_append]
      exact Nat.le_add_left _ _
    simp only [openEpoch, hlast, ne_eq, hne, not_false_eq_true, if_true, hearned.ne']
    split
    · exact ⟨1, drop_append_of_le_length hpos, fun hle ↦ by rw [length_drop]; omega⟩
    rename_i hle
    rw [length_append, length_singleton] at hle
    exact ⟨0, rfl, fun _ ↦ Nat.le_of_not_gt hle⟩
  obtain ⟨hlt, heq⟩ := incrementCredits_of_open hopen h
  exact ⟨hlt, k, heq, fun hle ↦ by rw [heq, length_append]; exact hlength hle⟩

/-- One credit for an epoch not before the others. -/
theorem Credited.step (hs : Credited epochs s) (hmono : ∀ e ∈ epochs, e ≤ epoch)
    (h : s.incrementCredits epoch = some s') : Credited (epochs ++ [epoch]) s' := by
  have hhere : (epochs ++ [epoch])[epochs.length]? = some epoch := getElem?_concat_length
  have hlast := hs.last_eq
  rcases s.epochCredits.eq_nil_or_concat with hnil | ⟨init, ⟨e, f, i⟩, hentries⟩
  · -- the first credit of the account
    rw [hnil] at hlast
    obtain rfl := getLast?_eq_none_iff.mp hlast.symm
    have hopen : openEpoch s.epochCredits epoch = [(epoch, 0, 0)] := by rw [hnil]; rfl
    rw [incrementCredits, hopen] at h
    cases h
    refine ⟨(by decide : 1 ≤ 64), pairwise_singleton _ _, ⟨0, rfl, Nat.one_pos, ?_, rfl⟩, rfl,
      (by decide : 1 < 2 ^ 64)⟩
    intro c hlt hle
    obtain rfl : c = 1 := by omega
    exact hhere
  rw [concat_eq_append] at hentries
  obtain ⟨start, hledger⟩ := hs.ledger
  have hincreasing := hs.increasing
  have hsplit := hledger
  rw [hentries, Ledger.concat] at hsplit
  obtain ⟨hinit, hif, hcover, hfinish⟩ := hsplit
  rw [hentries, getLast?_concat] at hlast
  have hlength : (epochs ++ [epoch]).length = f + 1 := by
    rw [length_append, hfinish]
    rfl
  rw [← hfinish] at hhere
  by_cases he : epoch = e
  · subst he
    obtain ⟨hlt, heq⟩ := incrementCredits_same hentries h
    refine ⟨?_, ?_, ⟨start, ?_⟩, ?_, hlength ▸ hlt⟩
    · have hle := hs.length_le
      rw [hentries, length_append] at hle
      rw [heq, length_append]
      exact hle
    · rw [hentries, pairwise_append] at hincreasing
      rw [heq, pairwise_append]
      refine ⟨hincreasing.1, pairwise_singleton _ _, fun a ha b hb ↦ ?_⟩
      rw [mem_singleton.mp hb]
      exact hincreasing.2.2 a ha (epoch, f, i) (mem_singleton_self _)
    · rw [heq, Ledger.concat, hlength]
      refine ⟨hinit.extend, hif.trans (lt_succ_self f), fun c hlo hhi ↦ ?_, rfl⟩
      rcases hhi.eq_or_lt with rfl | hhi
      · exact hhere
      have hc := hcover c hlo (le_of_lt_succ hhi)
      rw [List.getElem?_append_left (List.getElem?_eq_some_iff.mp hc).1, hc]
    rw [heq, getLast?_concat, getLast?_concat]
    rfl
  obtain ⟨hlt, k, heq, hle⟩ := incrementCredits_new hentries he hif h
  -- the epoch of the last entry is that of the last call
  have hbefore : e < epoch := lt_of_le_of_ne (hmono e (mem_of_getLast? hlast.symm)) (Ne.symm he)
  refine ⟨hle hs.length_le, ?_, ?_, ?_, hlength ▸ hlt⟩
  · rw [heq, pairwise_append]
    refine ⟨hincreasing.sublist (drop_sublist _ _), pairwise_singleton _ _, ?_⟩
    intro a ha b hb
    rw [mem_singleton.mp hb]
    have ha := mem_of_mem_drop ha
    rw [hentries, pairwise_append] at hincreasing
    rw [hentries, mem_append, mem_singleton] at ha
    rcases ha with ha | rfl
    · exact (hincreasing.2.2 a ha _ (mem_singleton_self _)).trans hbefore
    · exact hbefore
  · rw [← take_append_drop k s.epochCredits, Ledger.append] at hledger
    obtain ⟨mid, -, hledger⟩ := hledger
    refine ⟨mid, ?_⟩
    rw [heq, Ledger.concat, hlength, hfinish]
    refine ⟨hledger.extend, lt_succ_self _, fun c hlo hhi ↦ ?_, rfl⟩
    obtain rfl : c = epochs.length + 1 := by omega
    exact hfinish ▸ hhere
  rw [heq, getLast?_concat, getLast?_concat]
  rfl

/-- Any number of credits, in epochs that do not decrease. -/
theorem credited_run (hempty : s.epochCredits = []) (hmono : epochs.Pairwise (· ≤ ·))
    (h : epochs.foldlM incrementCredits s = some s') : Credited epochs s' := by
  induction epochs using reverseRecOn generalizing s' with
  | nil =>
    cases h
    exact ⟨by simp [hempty], by simp [hempty], ⟨0, by rw [hempty]; rfl⟩, by rw [hempty]; rfl,
      by decide⟩
  | append_singleton epochs epoch ih =>
    rw [foldlM_append, bind_eq_some] at h
    obtain ⟨mid, hmid, h⟩ := h
    rw [pairwise_append] at hmono
    simp only [foldlM_cons, foldlM_nil, bind_pure] at h
    exact (ih hmono.1 hmid).step (fun e he ↦ hmono.2.2 e he _ (mem_singleton_self _)) h

lemma exists_credited_run (hempty : s.epochCredits = []) (hmono : epochs.Pairwise (· ≤ ·))
    (hlt : epochs.length < 2 ^ 64) : ∃ s', epochs.foldlM incrementCredits s = some s' := by
  induction epochs using reverseRecOn with
  | nil => exact ⟨s, rfl⟩
  | append_singleton epochs epoch ih =>
    rw [length_append, length_singleton] at hlt
    obtain ⟨mid, hmid⟩ := ih (pairwise_append.mp hmono).1 (lt_of_succ_lt hlt)
    have hcredits := (credited_run hempty (pairwise_append.mp hmono).1 hmid).credits_eq
    obtain ⟨s', hs'⟩ := exists_incrementCredits epoch (hcredits ▸ hlt)
    refine ⟨s', ?_⟩
    rw [foldlM_append, hmid]
    simp only [some_bind, foldlM_cons, foldlM_nil, hs', Option.pure_def]

end VoteState

/-! ### Redeeming -/

namespace Stake

variable {ops : FloatOps} {history : Option StakeHistory} {s : Stake} {stakeAt : Epoch → ℕ}

/-- The effective stakes of these epochs exist and are `u64`s. -/
def StakesAt (ops : FloatOps) (history : Option StakeHistory) (s : Stake) (stakeAt : Epoch → ℕ)
    (entries : List (Epoch × ℕ × ℕ)) : Prop :=
  ∀ entry ∈ entries, s.delegation.effectiveStake ops entry.1 history = some (stakeAt entry.1) ∧
    stakeAt entry.1 < 2 ^ 64

lemma earnedCredits_eq {observed seen : ℕ} (hle : observed ≤ seen)
    (hseen : seen ≤ max observed initial) (hlt : initial < final) :
    earnedCredits observed seen final initial = some (final - max observed initial) := by
  unfold earnedCredits
  split_ifs with hbefore hwithin
  · rw [max_eq_right hbefore.le]
    exact checkedSub_eq_some.mpr ⟨hlt.le, rfl⟩
  · rw [max_eq_left (not_lt.mp hbefore)] at hseen ⊢
    exact checkedSub_eq_some.mpr ⟨by omega, by omega⟩
  · rw [max_eq_left (not_lt.mp hbefore), Nat.sub_eq_zero_of_le (not_lt.mp hwithin)]

lemma sum_entry {observed : ℕ}
    (hepoch : ∀ c, initial < c → c ≤ final → epochs[c - 1]? = some epoch) :
    ∑ c ∈ Finset.Ioc (max observed initial) final, stakeAt (epochs.getD (c - 1) 0) =
      stakeAt epoch * (final - max observed initial) := by
  rw [← card_Ioc, mul_comm]
  refine Finset.sum_const_nat fun c hc ↦ ?_
  obtain ⟨hlo, hhi⟩ := Finset.mem_Ioc.mp hc
  rw [getD_eq_getElem?_getD, hepoch c ((le_max_right _ _).trans_lt hlo) hhi]
  rfl

/-- The loop over a ledger adds up the credits not observed. -/
theorem foldlM_addEpochPoints {points seen : ℕ} (h : Ledger epochs start entries finish)
    (hfinish : finish < 2 ^ 64) (hstakes : StakesAt ops history s stakeAt entries)
    (hpoints : points ≤ (2 ^ 64 - 1) * start) (hle : s.creditsObserved ≤ seen)
    (hseen : seen ≤ max s.creditsObserved start) :
    ∃ seen', entries.foldlM (s.addEpochPoints ops history) (points, seen) = some (points +
        ∑ c ∈ Finset.Ioc (max s.creditsObserved start) finish, stakeAt (epochs.getD (c - 1) 0),
        seen') ∧ (entries ≠ [] → seen' = max s.creditsObserved finish) := by
  induction entries generalizing start points seen with
  | nil =>
    obtain rfl : start = finish := h
    rw [Finset.Ioc_eq_empty (not_lt.mpr (le_max_right _ _))]
    exact ⟨seen, rfl, fun hne ↦ absurd rfl hne⟩
  | cons entry entries ih =>
    obtain ⟨epoch, final, initial⟩ := entry
    obtain ⟨rfl, hlt, hepoch, hrest⟩ := h
    obtain ⟨⟨hstake, hbound⟩, hstakes⟩ := forall_mem_cons.mp hstakes
    have hfinal := hrest.start_le
    -- the points of the entry fit
    have hmul : stakeAt epoch * (final - max s.creditsObserved initial) ≤
        (2 ^ 64 - 1) * (final - initial) :=
      Nat.mul_le_mul (le_sub_one_of_lt hbound) (Nat.sub_le_sub_left (le_max_right _ _) _)
    have hstep : s.addEpochPoints ops history (points, seen) (epoch, final, initial) =
        some (points + stakeAt epoch * (final - max s.creditsObserved initial),
          max seen final) := by
      have hfits : checkedMul 128 (stakeAt epoch) (final - max s.creditsObserved initial) =
          some (stakeAt epoch * (final - max s.creditsObserved initial)) :=
        checkedMul_eq_some.mpr ⟨by omega, rfl⟩
      have hsum : checkedAdd 128 points
          (stakeAt epoch * (final - max s.creditsObserved initial)) = some _ :=
        checkedAdd_eq_some.mpr ⟨by omega, rfl⟩
      simp only [addEpochPoints, hstake, earnedCredits_eq hle hseen hlt, some_bind, hfits, hsum,
        Option.pure_def]
    obtain ⟨seen', hfold, hseen'⟩ := @ih final
      (points + stakeAt epoch * (final - max s.creditsObserved initial)) (max seen final) hrest
      hstakes (by omega) (hle.trans (le_max_left _ _)) (by omega)
    refine ⟨seen', ?_, fun _ ↦ ?_⟩
    · rw [foldlM_cons, hstep, some_bind, hfold, ← sum_entry hepoch, add_assoc]
      congr 3
      rcases le_total s.creditsObserved final with hobserved | hobserved
      · rw [max_eq_right hobserved]
        exact Finset.sum_Ioc_consecutive _ (max_le hobserved hlt.le) hfinal
      rw [max_eq_left hobserved, max_eq_left (hlt.le.trans hobserved),
        Finset.Ioc_eq_empty (not_lt.mpr hobserved), Finset.sum_empty, zero_add]
    rcases entries with - | ⟨next, entries⟩
    · obtain rfl : final = finish := hrest
      rw [foldlM_nil, pure_eq_some, Prod.mk.injEq] at hfold
      rw [← hfold.2]
      omega
    · exact hseen' (cons_ne_nil _ _)

/-- **Credits stay chained, and are redeemed once.** Calls in epochs that do not decrease give at
most 64 entries, of increasing epochs and without gaps, and as many credits as calls. A redemption
counts every credit after those observed and those dropped once, at the stake of its epoch; a second
one counts none. -/
theorem credits_redeemed_once {v : VoteState} (hempty : v.epochCredits = [])
    (hmono : epochs.Pairwise (· ≤ ·)) :
    (epochs.length < 2 ^ 64 → ∃ v', epochs.foldlM incrementCredits v = some v') ∧
    ∀ v', epochs.foldlM incrementCredits v = some v' →
      v'.epochCredits.length ≤ maxEpochCreditsHistory ∧
      v'.epochCredits.Pairwise (fun a b ↦ a.1 < b.1) ∧
      v'.epochCredits.IsChain (fun a b ↦ b.2.2 = a.2.1) ∧ v'.credits = epochs.length ∧
      ∀ ops history s stakeAt, StakesAt ops history s stakeAt v'.epochCredits →
        s.creditsObserved ≤ v'.credits → s.calculateStakePointsAndCredits ops v' history = some
          (∑ c ∈ Finset.Ioc (max s.creditsObserved v'.oldestStart) v'.credits,
            stakeAt (epochs.getD (c - 1) 0), v'.credits) ∧
        Stake.calculateStakePointsAndCredits ops { s with creditsObserved := v'.credits } v'
          history = some (0, v'.credits) := by
  refine ⟨exists_credited_run hempty hmono, fun v' h ↦ ?_⟩
  have hv := credited_run hempty hmono h
  refine ⟨hv.length_le, hv.increasing, hv.ledger_oldestStart.isChain, hv.credits_eq, ?_⟩
  intro ops history s stakeAt hstakes hobserved
  refine ⟨?_, if_pos le_rfl⟩
  unfold calculateStakePointsAndCredits
  rw [hv.credits_eq] at hobserved ⊢
  split_ifs with hdone
  · -- everything is observed
    have hall := le_antisymm hobserved hdone
    rw [Finset.Ioc_eq_empty (not_lt.mpr (hall ▸ le_max_left _ _)), Finset.sum_empty, hall]
  obtain ⟨seen, hfold, hseen⟩ := @foldlM_addEpochPoints _ _ _ _ ops history s stakeAt 0
    s.creditsObserved hv.ledger_oldestStart hv.lt hstakes (Nat.zero_le _) le_rfl (le_max_left _ _)
  have hne : v'.epochCredits ≠ [] := by
    intro hnil
    have hledger := hv.ledger_oldestStart
    rw [oldestStart, hnil] at hledger
    exact hdone ((hledger : 0 = epochs.length) ▸ Nat.zero_le _)
  rw [hfold, hseen hne, zero_add, max_eq_right hobserved]

/-- Three credits in two epochs. -/
theorem credits_redeemed_once_two_epochs :
    ∃ v', [4, 4, 6].foldlM incrementCredits (default : VoteState) = some v' ∧ v'.credits = 3 := by
  obtain ⟨hexists, hrun⟩ := @credits_redeemed_once [4, 4, 6] default rfl (by decide)
  obtain ⟨v', h⟩ := hexists (by decide)
  exact ⟨v', h, (hrun v' h).2.2.2.1⟩

end Stake

end Renec
