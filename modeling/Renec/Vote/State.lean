import Renec.Machine.Outcome
import Renec.Sdk.Types

/-!
# The vote state

The lockout stack a validator's votes build, as the vote program keeps it
(`programs/vote/src/vote_state/mod.rs`). `votes` is the `VecDeque` of the source, oldest vote first:
votes are pushed and popped at the back, and rooted at the front.
-/

namespace Renec

open Outcome

/-- `MAX_LOCKOUT_HISTORY`: the depth of the lockout stack. -/
def maxLockoutHistory : ℕ := 31

/-- `INITIAL_LOCKOUT`: the base of the lockout. -/
def initialLockout : ℕ := 2

/-- `MAX_EPOCH_CREDITS_HISTORY`: the number of epochs whose credits are kept. -/
def maxEpochCreditsHistory : ℕ := 64

inductive VoteError where
  | voteTooOld
  | slotsMismatch
  | slotHashMismatch
  | emptySlots
  | timestampTooOld
  | tooSoonToReauthorize
  | lockoutConflict
  | newVoteStateLockoutMismatch
  | slotsNotOrdered
  | confirmationsNotOrdered
  | zeroConfirmations
  | confirmationTooLarge
  | rootRollBack
  | confirmationRollBack
  | slotSmallerThanRoot
  | tooManyVotes
  deriving DecidableEq

/-- A vote: the slots voted for, oldest first, and the bank hash of the last one. -/
structure Vote where
  slots : List Slot
  hash : Hash
  timestamp : Option UnixTimestamp
  deriving DecidableEq

namespace Vote

/-- `Vote::new`. -/
def new (slots : List Slot) (hash : Hash) : Vote := ⟨slots, hash, none⟩

def lastVotedSlot (v : Vote) : Option Slot := v.slots.getLast?

end Vote

/-- A voted slot and how often later votes have confirmed it. -/
structure Lockout where
  slot : Slot
  confirmationCount : ℕ
  deriving DecidableEq

namespace Lockout

/-- A fresh vote has one confirmation: itself. -/
def new (slot : Slot) : Lockout := ⟨slot, 1⟩

/-- The number of slots for which this vote is locked. -/
def lockout (l : Lockout) : Option ℕ := checkedPow 64 initialLockout l.confirmationCount

/-- The last slot at which the vote is still locked out. -/
def lastLockedOutSlot (l : Lockout) : Option Slot := do
  checkedAdd 64 l.slot (← l.lockout)

def isLockedOutAtSlot (l : Lockout) (slot : Slot) : Option Bool := do
  return decide (slot ≤ (← l.lastLockedOutSlot))

end Lockout

/-- The slot and time a vote account last reported. -/
structure BlockTimestamp where
  slot : Slot
  timestamp : UnixTimestamp
  deriving DecidableEq

/-- The state of a vote account, without the keys it is controlled by. -/
structure VoteState where
  /-- The share of the rewards, in percent, kept by the vote account. -/
  commission : ℕ
  /-- The lockout stack, oldest vote first. -/
  votes : List Lockout
  /-- The last vote that reached the bottom of a full stack. -/
  rootSlot : Option Slot
  /-- Credits by epoch: the epoch, the credits at its end and the credits at its start. -/
  epochCredits : List (Epoch × ℕ × ℕ)
  lastTimestamp : BlockTimestamp
  deriving DecidableEq

/-- `VoteState::default()`. -/
instance : Inhabited VoteState := ⟨⟨0, [], none, [], ⟨0, 0⟩⟩⟩

namespace VoteState

variable (s : VoteState)

def lastLockout : Option Lockout := s.votes.getLast?

def lastVotedSlot : Option Slot := s.lastLockout.map Lockout.slot

/-- Whether a slot is one the state has already voted at or past. -/
def isOldSlot (slot : Slot) : Bool := s.lastVotedSlot.any fun last ↦ decide (slot ≤ last)

/-! ### Credits -/

/-- The total of credits earned. -/
def credits (s : VoteState) : ℕ :=
  match s.epochCredits.getLast? with
  | none => 0
  | some (_, credits, _) => credits

def currentEpoch : Epoch :=
  match s.epochCredits.getLast? with
  | none => 0
  | some (epoch, _, _) => epoch

/-- The first half of `increment_credits`: make the last entry the one for `epoch`. -/
def openEpoch (entries : List (Epoch × ℕ × ℕ)) (epoch : Epoch) : List (Epoch × ℕ × ℕ) :=
  match entries.getLast? with
  -- never seen a credit
  | none => [(epoch, 0, 0)]
  | some (lastEpoch, credits, prevCredits) =>
    if epoch ≠ lastEpoch then
      let moved :=
        -- an epoch without credits is not kept: its entry moves on to the new epoch
        if credits ≠ prevCredits then entries ++ [(epoch, credits, credits)]
        else entries.dropLast ++ [(epoch, credits, prevCredits)]
      if moved.length > maxEpochCreditsHistory then moved.drop 1 else moved
    else entries

/-- Increment credits, recording the credits of the last epoch if the epoch is new. -/
def incrementCredits (epoch : Epoch) : Option VoteState := do
  let entries := openEpoch s.epochCredits epoch
  let (e, credits, prevCredits) ← entries.getLast?
  let credits ← checkedAdd 64 credits 1
  return { s with epochCredits := entries.dropLast ++ [(e, credits, prevCredits)] }

/-! ### One vote at a time -/

/-- Pop votes that are not locked out at the next slot, newest first. -/
def popExpiredFrom (nextVoteSlot : Slot) : List Lockout → Option (List Lockout)
  | [] => some []
  | vote :: older => do
    if ← vote.isLockedOutAtSlot nextVoteSlot then return vote :: older
    else popExpiredFrom nextVoteSlot older

/-- Pop all recent votes that are not locked out at the next vote slot. The loop looks at the
back of the deque and stops at the first vote still locked out. -/
def popExpiredVotes (votes : List Lockout) (nextVoteSlot : Slot) : Option (List Lockout) := do
  return (← popExpiredFrom nextVoteSlot votes.reverse).reverse

/-- The vote at index `i` of a stack is confirmed once more if it has more votes above it than
confirmations seen. -/
def raise (stackDepth i : ℕ) (v : Lockout) : Lockout :=
  if stackDepth > i + v.confirmationCount then
    { v with confirmationCount := v.confirmationCount + 1 }
  else v

/-- Increase the lockouts after a push. -/
def doubleLockouts (votes : List Lockout) : List Lockout := votes.mapIdx (raise votes.length)

/-- Once the stack is full, pop the oldest lockout, make it the root and credit it. -/
def rootOldest (epoch : Epoch) : Option VoteState :=
  if s.votes.length = maxLockoutHistory then
    match s.votes with
    | [] => none
    | vote :: votes => { s with votes := votes, rootSlot := some vote.slot }.incrementCredits epoch
  else some s

/-- Apply the vote for one slot. Slots not above the last vote are ignored. -/
def processNextVoteSlot (nextVoteSlot : Slot) (epoch : Epoch) : Option VoteState :=
  if s.isOldSlot nextVoteSlot then some s
  else do
    let votes ← popExpiredVotes s.votes nextVoteSlot
    let s ← { s with votes := votes }.rootOldest epoch
    return { s with votes := doubleLockouts (s.votes ++ [Lockout.new nextVoteSlot]) }

/-- The loop of `check_slots_are_valid`: `i` counts the vote's slots from the oldest, `j` the slot
hashes from the oldest, which is the last. Returns the two counters at the exit. -/
def matchSlotHashes (s : VoteState) (slots : List Slot) (slotHashes : List (Slot × Hash))
    (i j : ℕ) : ℕ × ℕ :=
  if h : i < slots.length ∧ 0 < j then
    if s.isOldSlot slots[i] then matchSlotHashes s slots slotHashes (i + 1) j
    else if slotHashes[j - 1]?.map Prod.fst ≠ some slots[i] then
      matchSlotHashes s slots slotHashes i (j - 1)
    else matchSlotHashes s slots slotHashes (i + 1) (j - 1)
  else (i, j)
termination_by (slots.length - i) + j

section

variable (vote : Vote) (slotHashes : List (Slot × Hash))

def checkSlotsAreValid : Outcome VoteError Unit := do
  let (i, j) := s.matchSlotHashes vote.slots slotHashes 0 slotHashes.length
  failIf (j == slotHashes.length) .voteTooOld
  failIf (i != vote.slots.length) .slotsMismatch
  let (_, hash) ← (slotHashes[j]? : Option (Slot × Hash))
  failIf (hash != vote.hash) .slotHashMismatch

/-- Check a vote against the slot hashes and apply its slots. The state changes only after all
checks have passed. -/
def processVote (epoch : Epoch) : Outcome VoteError VoteState := do
  failIf vote.slots.isEmpty .emptySlots
  s.checkSlotsAreValid vote slotHashes
  vote.slots.foldlM (fun s slot ↦ s.processNextVoteSlot slot epoch) s

end

/-- "Unchecked" processing: the slot hashes are made up from the vote, and an error is ignored. -/
def processVoteUnchecked (vote : Vote) : Option VoteState :=
  let slotHashes := vote.slots.reverse.map fun slot ↦ (slot, vote.hash)
  match s.processVote vote slotHashes s.currentEpoch with
  | .ok s' => some s'
  | .err _ => some s
  | .panic => none

def processSlotVoteUnchecked (slot : Slot) : Option VoteState :=
  s.processVoteUnchecked (Vote.new [slot] default)

/-! ### Whole towers -/

def processTimestamp (slot : Slot) (timestamp : UnixTimestamp) : Except VoteError VoteState :=
  if (slot < s.lastTimestamp.slot ∨ timestamp < s.lastTimestamp.timestamp) ∨
      (slot = s.lastTimestamp.slot ∧ ⟨slot, timestamp⟩ ≠ s.lastTimestamp ∧
        s.lastTimestamp.slot ≠ 0) then
    .error .timestampTooOld
  else .ok { s with lastTimestamp := ⟨slot, timestamp⟩ }

/-- The checks one proposed vote makes against the vote before it. -/
def checkAgainstPrevious (vote : Lockout) : Option Lockout → Outcome VoteError Unit
  | none => .ok ()
  | some previous => do
    failIf (previous.slot ≥ vote.slot) .slotsNotOrdered
    failIf (previous.confirmationCount ≤ vote.confirmationCount) .confirmationsNotOrdered
    failIf (vote.slot > (← previous.lastLockedOutSlot)) .newVoteStateLockoutMismatch

variable (newState : List Lockout) (newRoot : Option Slot)

/-- Check that the votes of a proposed state are strictly sorted from oldest to newest, with
strictly decreasing confirmations between 1 and the maximum, above the new root, and that no vote
is outlived by the vote after it. -/
def checkNewState : Option Lockout → List Lockout → Outcome VoteError Unit
  | _, [] => .ok ()
  | previous, vote :: votes => do
    failIf (vote.confirmationCount == 0) .zeroConfirmations
    failIf (vote.confirmationCount > maxLockoutHistory) .confirmationTooLarge
    -- a root of slot 0 is the root of an empty tower
    failIf (newRoot.any fun root ↦ decide (vote.slot ≤ root ∧ root ≠ 0)) .slotSmallerThanRoot
    checkAgainstPrevious vote previous
    checkNewState (some vote) votes

/-- The merge of the current votes and the proposed ones, both from the oldest on. A current vote
that is missing from the proposal must have expired by the next proposed vote, and one that is in
both must not lose confirmations. -/
def checkPoppedVotes : List Lockout → List Lockout → Outcome VoteError Unit
  | current :: currents, new :: news =>
    match compare current.slot new.slot with
    | .lt => do
      failIf ((← current.lastLockedOutSlot) ≥ new.slot) .lockoutConflict
      checkPoppedVotes currents (new :: news)
    | .eq => do
      failIf (new.confirmationCount < current.confirmationCount) .confirmationRollBack
      checkPoppedVotes currents news
    | .gt => checkPoppedVotes (current :: currents) news
  | _, _ => .ok ()
termination_by currents news => currents.length + news.length

/-- The comparison of the proposed root with the current one. -/
def checkRoot (newRoot currentRoot : Option Slot) : Outcome VoteError Unit :=
  match newRoot, currentRoot with
  | some newRoot, some currentRoot => failIf (newRoot < currentRoot) .rootRollBack
  | none, some _ => .err .rootRollBack
  | _, none => .ok ()

/-- All checks of `process_new_vote_state`, in order; none of them changes the state. -/
def checkNewVoteState : Outcome VoteError Unit := do
  let last ← (newState.getLast? : Option Lockout)
  failIf (newState.length > maxLockoutHistory) .tooManyVotes
  -- the caller has already refused a vote that is not new
  assert (!s.isOldSlot last.slot)
  checkRoot newRoot s.rootSlot
  checkNewState newRoot none newState
  -- start at the first current vote above the proposed root
  checkPoppedVotes (s.votes.dropWhile fun vote ↦ newRoot.any fun root ↦ decide (vote.slot ≤ root))
    newState

def creditNewRoot (epoch : Epoch) : Option VoteState :=
  if s.rootSlot ≠ newRoot then s.incrementCredits epoch else some s

/-- Record the timestamp that came with a proposed state, if there is one. -/
def recordTimestamp (slot : Slot) : Option UnixTimestamp → Except VoteError VoteState
  | none => .ok s
  | some timestamp => s.processTimestamp slot timestamp

/-- Replace the votes and the root by proposed ones. The credit for a new root stays when the
timestamp is refused after it. -/
def processNewVoteState (timestamp : Option UnixTimestamp) (epoch : Epoch) :
    Option (Except VoteError Unit × VoteState) :=
  match s.checkNewVoteState newState newRoot with
  | .panic => none
  | .err e => some (.error e, s)
  | .ok () => do
    let s ← s.creditNewRoot newRoot epoch
    let last ← newState.getLast?
    match s.recordTimestamp last.slot timestamp with
    | .error e => return (.error e, s)
    | .ok s => return (.ok (), { s with rootSlot := newRoot, votes := newState })

end VoteState

end Renec
