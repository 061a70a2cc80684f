import Renec.Collections.Sweep
import Renec.Machine.Outcome
import Renec.Sdk.Types

/-!
# The heaviest subtree fork choice

The tree of blocks over which a validator chooses the fork to build on
(`core/src/heaviest_subtree_fork_choice.rs`, `core/src/tree_diff.rs`). A batch of votes, or a block
found to be a duplicate or confirmed, is turned into update operations, kept in an ordered map and
applied from the greatest key down.
-/

namespace Renec

/-! ### Keys -/

/-- A block: its slot, and its hash, as there can be several versions of a slot. -/
structure SlotHashKey where
  slot : Slot
  hash : Hash

/-- Keys compare by the slot first. -/
instance : LinearOrder SlotHashKey :=
  LinearOrder.lift' (fun k ↦ toLex (k.slot, k.hash)) fun a b h ↦ by
    cases a; cases b
    simpa using h

/-- `SlotHashKey::default()`. -/
instance : Inhabited SlotHashKey := ⟨⟨0, default⟩⟩

/-- What is done to a node; the order is that of the declaration. -/
inductive UpdateLabel where
  | aggregate
  | add
  | markValid (slot : Slot)
  | markInvalid (slot : Slot)
  | subtract

def UpdateLabel.rank : UpdateLabel → ℕ ×ₗ Slot
  | aggregate => toLex (0, 0)
  | add => toLex (1, 0)
  | markValid slot => toLex (2, slot)
  | markInvalid slot => toLex (3, slot)
  | subtract => toLex (4, 0)

lemma UpdateLabel.rank_injective : Function.Injective UpdateLabel.rank := by
  intro a b h
  cases a <;> cases b <;> simp_all [rank]

instance : LinearOrder UpdateLabel := LinearOrder.lift' UpdateLabel.rank UpdateLabel.rank_injective

/-- A node and what is done to it. -/
structure UpdateKey where
  node : SlotHashKey
  label : UpdateLabel

instance : LinearOrder UpdateKey :=
  LinearOrder.lift' (fun k ↦ toLex (k.node, k.label)) fun a b h ↦ by
    cases a; cases b
    simpa using h

inductive UpdateOperation where
  | add (stake : ℕ)
  | markValid (slot : Slot)
  | markInvalid (slot : Slot)
  | subtract (stake : ℕ)
  | aggregate
  deriving DecidableEq

abbrev UpdateOperations := Std.TreeMap UpdateKey UpdateOperation

/-! ### Nodes -/

structure ForkInfo where
  /-- The stake that has voted for exactly this slot. -/
  stakeVotedAt : ℕ
  /-- The stake that has voted for this slot and the subtree rooted at it. -/
  stakeVotedSubtree : ℕ
  /-- The best slot in the subtree rooted at this slot. -/
  bestSlot : SlotHashKey
  parent : Option SlotHashKey
  children : List SlotHashKey
  /-- The latest ancestor of this node that has been marked invalid, or the slot itself. -/
  latestInvalidAncestor : Option Slot
  /-- Set if this slot or a child node was duplicate confirmed. -/
  isDuplicateConfirmed : Bool
  deriving DecidableEq

namespace ForkInfo

variable (info : ForkInfo)

/-- Whether the fork rooted at this node is included in fork choice. -/
def isCandidate : Bool := info.latestInvalidAncestor.isNone

def setDuplicateConfirmed : ForkInfo :=
  { info with isDuplicateConfirmed := true, latestInvalidAncestor := none }

def updateWithNewlyValidAncestor (newlyValidAncestor : Slot) : ForkInfo :=
  match info.latestInvalidAncestor with
  | some latest =>
    if latest ≤ newlyValidAncestor then { info with latestInvalidAncestor := none } else info
  | none => info

/-- It should not be a duplicate confirmed slot that is marked as invalid. -/
def updateWithNewlyInvalidAncestor (newlyInvalidAncestor : Slot) : Option ForkInfo :=
  if info.isDuplicateConfirmed then none
  else if info.latestInvalidAncestor.all fun latest ↦ decide (latest < newlyInvalidAncestor) then
    some { info with latestInvalidAncestor := some newlyInvalidAncestor }
  else some info

end ForkInfo

abbrev ForkInfos := Finmap fun _ : SlotHashKey ↦ ForkInfo

/-- The nodes, the latest votes and the root. -/
structure HeaviestSubtreeForkChoice where
  forkInfos : ForkInfos
  latestVotes : Finmap fun _ : Pubkey ↦ SlotHashKey
  root : SlotHashKey

namespace ForkInfos

variable (infos : ForkInfos)

variable (key : SlotHashKey)

def parent : Option SlotHashKey :=
  (infos.lookup key).bind ForkInfo.parent

/-! ### Walks -/

/-- The ancestors of a node, nearest first; at most `rounds`. -/
def ancestorsFrom (infos : ForkInfos) : ℕ → SlotHashKey → Option (List SlotHashKey)
  | 0, _ => none
  | rounds + 1, key =>
    match infos.parent key with
    | none => some []
    | some parent => (ancestorsFrom infos rounds parent).map (parent :: ·)

/-- `AncestorIterator`. -/
def ancestorIterator : Option (List SlotHashKey) :=
  infos.ancestorsFrom (infos.keys.card + 1) key

/-- The loop of `subtree_diff`, with the stack of pending keys, last pushed first. The set of
reachable keys is a list; what is done with it does not depend on the order. -/
def subtreeDiffLoop (infos : ForkInfos) (root₂ : SlotHashKey) :
    ℕ → List SlotHashKey → List SlotHashKey → Option (List SlotHashKey)
  | _, [], reachable => some reachable
  | 0, _ :: _, _ => none
  | rounds + 1, current :: pending, reachable =>
    if current = root₂ then subtreeDiffLoop infos root₂ rounds pending reachable
    else do
      let info ← infos.lookup current
      subtreeDiffLoop infos root₂ rounds (info.children.reverse ++ pending)
        (reachable.insert current)

/-- All nodes reachable from the first key, excluding the subtree at the second. -/
def subtreeDiff (root₁ root₂ : SlotHashKey) : Option (List SlotHashKey) :=
  if root₁ ∈ infos then infos.subtreeDiffLoop root₂ infos.keys.card [root₁] [] else some []

/-! ### New leaves -/

/-- Whether a node is the heaviest among the children of its parent. -/
def isBestChild (maybeBestChild : SlotHashKey) : Option Bool := do
  let weight := (← infos.lookup maybeBestChild).stakeVotedSubtree
  match infos.parent maybeBestChild with
  -- if there's no parent, this must be the root
  | none => return true
  | some parent => do
    let children := (← infos.lookup parent).children
    children.allM fun child ↦ do
      let childInfo ← infos.lookup child
      -- children currently marked as invalid don't count
      return !(childInfo.isCandidate && (decide (childInfo.stakeVotedSubtree > weight) ||
        (weight == childInfo.stakeVotedSubtree && decide (child < maybeBestChild))))

/-- The loop of `propagate_new_leaf`, up the ancestors that have the old best slot. -/
def propagateLoop (oldBest newBest : SlotHashKey) :
    ℕ → Option SlotHashKey → ForkInfos → Option ForkInfos
  | _, none, infos => some infos
  | 0, some _, _ => none
  | rounds + 1, some ancestor, infos => do
    let info ← infos.lookup ancestor
    if info.bestSlot = oldBest then
      propagateLoop oldBest newBest rounds info.parent
        (infos.insert ancestor { info with bestSlot := newBest })
    else some infos

def propagateNewLeaf (key parent : SlotHashKey) : Option ForkInfos := do
  let parentBestSlot := (← infos.lookup parent).bestSlot
  if ← infos.isBestChild key then
    propagateLoop parentBestSlot key infos.keys.card (some parent) infos
  else some infos

def addNewLeafSlot (parent : Option SlotHashKey) : Option ForkInfos :=
  if key ∈ infos then some infos
  else
    let parentLatestInvalidAncestor :=
      parent.bind fun parent ↦ (infos.lookup parent).bind ForkInfo.latestInvalidAncestor
    -- without a parent this is the root, which must have reached the confirmed threshold
    let infos := infos.insert key ⟨0, 0, key, parent, [], parentLatestInvalidAncestor,
      parent.isNone⟩
    match parent with
    | none => some infos
    | some parent => do
      let info ← infos.lookup parent
      propagateNewLeaf (infos.insert parent { info with children := info.children ++ [key] }) key
        parent

/-! ### Update operations -/

/-- The locals of `aggregate_slot`. -/
structure Aggregation where
  stakeVotedSubtree : ℕ
  bestChildStakeVotedSubtree : ℕ
  bestChildSlotKey : SlotHashKey
  bestSlotHashKey : SlotHashKey
  isDuplicateConfirmed : Bool

variable (look : SlotHashKey → Option ForkInfo)

/-- One child in `aggregate_slot`. A child that is no candidate still counts for the weight. -/
def aggregateChild (key : SlotHashKey) (a : Aggregation) (child : SlotHashKey) :
    Option Aggregation := do
  let info ← look child
  let stake ← checkedAdd 64 a.stakeVotedSubtree info.stakeVotedSubtree
  let confirmed := a.isDuplicateConfirmed || info.isDuplicateConfirmed
  if info.isCandidate = true ∧ (a.bestChildSlotKey = key ∨
      info.stakeVotedSubtree > a.bestChildStakeVotedSubtree ∨
      (info.stakeVotedSubtree = a.bestChildStakeVotedSubtree ∧ child < a.bestChildSlotKey)) then
    return ⟨stake, info.stakeVotedSubtree, child, info.bestSlot, confirmed⟩
  else
    return { a with stakeVotedSubtree := stake, isDuplicateConfirmed := confirmed }

/-- The node after `aggregate_slot`, from the nodes of its children. -/
def aggregate (key : SlotHashKey) (info : ForkInfo) : Option ForkInfo := do
  let a ← info.children.foldlM (aggregateChild look key) ⟨info.stakeVotedAt, 0, key, key, false⟩
  let info := if a.isDuplicateConfirmed then info.setDuplicateConfirmed else info
  return { info with stakeVotedSubtree := a.stakeVotedSubtree, bestSlot := a.bestSlotHashKey }

def markForkValid (validSlot : Slot) (info : ForkInfo) : ForkInfo :=
  let info := info.updateWithNewlyValidAncestor validSlot
  if key.slot = validSlot then { info with isDuplicateConfirmed := true } else info

def addSlotStake (stake : ℕ) (info : ForkInfo) : Option ForkInfo := do
  return { info with
    stakeVotedAt := ← checkedAdd 64 info.stakeVotedAt stake
    stakeVotedSubtree := ← checkedAdd 64 info.stakeVotedSubtree stake }

def subtractSlotStake (stake : ℕ) (info : ForkInfo) : Option ForkInfo := do
  return { info with
    stakeVotedAt := ← checkedSub info.stakeVotedAt stake
    stakeVotedSubtree := ← checkedSub info.stakeVotedSubtree stake }

/-- What an operation makes of a node. Only aggregation reads other nodes. -/
def applyOperation (key : SlotHashKey) : UpdateOperation → ForkInfo → Option ForkInfo
  | .markValid validSlot, info => some (markForkValid key validSlot info)
  | .markInvalid invalidSlot, info => info.updateWithNewlyInvalidAncestor invalidSlot
  | .aggregate, info => aggregate look key info
  | .add stake, info => addSlotStake stake info
  | .subtract stake, info => subtractSlotStake stake info

/-- `process_update_operations`, from greatest to smallest slot. An operation on a slot that is not
in the tree does nothing. -/
def processUpdateOperations (operations : UpdateOperations) : Option ForkInfos :=
  Sweep.run UpdateKey.node applyOperation infos (OrderedMap.descending operations)

/-- `do_insert_aggregate_operation`, which also says whether the operation was not there yet. -/
def insertAggregateOperation (modifyForkValidity : Option (UpdateLabel × UpdateOperation))
    (operations : UpdateOperations) (key : SlotHashKey) : UpdateOperations × Bool :=
  if (⟨key, .aggregate⟩ : UpdateKey) ∈ operations then (operations, false)
  else
    let operations := match modifyForkValidity with
      | some (label, operation) => operations.insert ⟨key, label⟩ operation
      | none => operations
    (operations.insert ⟨key, .aggregate⟩ .aggregate, true)

/-- Across ancestors, up to the first one whose operation is there already. -/
def insertAcrossAncestors : List SlotHashKey → UpdateOperations → UpdateOperations
  | [], operations => operations
  | ancestor :: ancestors, operations =>
    match insertAggregateOperation none operations ancestor with
    | (operations, true) => insertAcrossAncestors ancestors operations
    | (operations, false) => operations

def insertAggregateOperations (operations : UpdateOperations) (key : SlotHashKey) :
    Option UpdateOperations := do
  return insertAcrossAncestors (← infos.ancestorIterator key) operations

/-! ### Marks -/

/-- The operations of a mark: on the subtree of the node, and aggregation across its ancestors. -/
def markOperations (label : UpdateLabel) (operation : UpdateOperation) :
    Option UpdateOperations := do
  let subtree ← infos.subtreeDiff key default
  infos.insertAggregateOperations
    (subtree.foldl (fun operations key ↦
      (insertAggregateOperation (some (label, operation)) operations key).1) ∅) key

def markForkInvalidCandidate : Option ForkInfos :=
  match infos.lookup key with
  | none => some infos
  | some info =>
    if info.isDuplicateConfirmed then none
    else do
      infos.processUpdateOperations
        (← infos.markOperations key (.markInvalid key.slot) (.markInvalid key.slot))

/-- The slots that are newly duplicate confirmed are returned too. -/
def markForkValidCandidate : Option (ForkInfos × List SlotHashKey) := do
  let ancestors ← infos.ancestorIterator key
  let confirmed ← (key :: ancestors).mapM fun key ↦
    (infos.lookup key).map fun info ↦ (key, info.isDuplicateConfirmed)
  let infos ← infos.processUpdateOperations
    (← infos.markOperations key (.markValid key.slot) (.markValid key.slot))
  return (infos, (confirmed.filter (!·.2)).map Prod.fst)

end ForkInfos

/-! ### The public methods -/

namespace HeaviestSubtreeForkChoice

variable (fc : HeaviestSubtreeForkChoice) (key : SlotHashKey)

def addNewLeafSlot (parent : Option SlotHashKey) : Option HeaviestSubtreeForkChoice := do
  return { fc with forkInfos := ← fc.forkInfos.addNewLeafSlot key parent }

def markForkInvalidCandidate : Option HeaviestSubtreeForkChoice := do
  return { fc with forkInfos := ← fc.forkInfos.markForkInvalidCandidate key }

def markForkValidCandidate : Option (HeaviestSubtreeForkChoice × List SlotHashKey) := do
  let (infos, confirmed) ← fc.forkInfos.markForkValidCandidate key
  return ({ fc with forkInfos := infos }, confirmed)

end HeaviestSubtreeForkChoice

end Renec
