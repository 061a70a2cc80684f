import Renec.ForkChoice.Tree

/-!
# Batches of update operations

What a batch does to each node. By the sweep, a node is in the end what its operations make of it,
in the order of their labels and with the final children (`lookup_processUpdateOperations`).
-/

namespace Renec.ForkInfos

open List Option ForkInfo

variable {k : SlotHashKey} {look look' : SlotHashKey → Option ForkInfo} {c b p : SlotHashKey}
  {info info' : ForkInfo} {l children : List SlotHashKey}

/-! ### What is read of a child -/

section

variable (look : SlotHashKey → Option ForkInfo) (key : SlotHashKey)

/-- The weight of the fork at a key. -/
def weight : ℕ :=
  (look key).elim 0 stakeVotedSubtree

/-- The fork at a key is included in fork choice. -/
def candidate : Bool :=
  (look key).any isCandidate

def confirmed : Bool :=
  (look key).any isDuplicateConfirmed

end

lemma weight_of_some (h : look c = some info) : weight look c = info.stakeVotedSubtree := by
  rw [weight, h]
  rfl

lemma candidate_of_some (h : look c = some info) : candidate look c = info.isCandidate := by
  rw [candidate, h]
  rfl

lemma confirmed_of_some (h : look c = some info) :
    confirmed look c = info.isDuplicateConfirmed := by
  rw [confirmed, h]
  rfl

/-- A fork is preferred to another one: it is heavier, or as heavy and has the smaller key. -/
def Outweighs (look : SlotHashKey → Option ForkInfo) (b c : SlotHashKey) : Prop :=
  weight look c < weight look b ∨ weight look c = weight look b ∧ b < c

lemma Outweighs.trans {a : SlotHashKey} (h₁ : Outweighs look a b) (h₂ : Outweighs look b c) :
    Outweighs look a c := by
  rcases h₁ with h₁ | ⟨h₁, hab⟩ <;> rcases h₂ with h₂ | ⟨h₂, hbc⟩
  · exact .inl (h₂.trans h₁)
  · exact .inl (h₂ ▸ h₁)
  · exact .inl (h₁ ▸ h₂)
  · exact .inr ⟨h₂.trans h₁, hab.trans hbc⟩

lemma outweighs_or_outweighs (hne : b ≠ c) : Outweighs look b c ∨ Outweighs look c b := by
  rcases lt_trichotomy (weight look b) (weight look c) with h | h | h
  · exact .inr (.inl h)
  · rcases lt_or_gt_of_ne hne with hlt | hlt
    · exact .inl (.inr ⟨h.symm, hlt⟩)
    · exact .inr (.inr ⟨h, hlt⟩)
  · exact .inl (.inl h)

/-- The candidate that is preferred to all others. -/
structure IsBestChild (look : SlotHashKey → Option ForkInfo) (children : List SlotHashKey)
    (b : SlotHashKey) : Prop where
  mem : b ∈ children
  candidate : candidate look b = true
  outweighs : ∀ c ∈ children, ForkInfos.candidate look c = true → c ≠ b → Outweighs look b c

/-- The best slot of a node: the node itself without candidates among its children, else that of the
best child. -/
def IsBestSlot (look : SlotHashKey → Option ForkInfo) (k : SlotHashKey)
    (children : List SlotHashKey) (best : SlotHashKey) : Prop :=
  (∀ c ∈ children, candidate look c = false) ∧ best = k ∨
    ∃ b, IsBestChild look children b ∧ (look b).map bestSlot = some best

/-! ### Aggregation -/

/-- The locals of the loop over the children, after some of them. -/
structure AggregatedOver (look : SlotHashKey → Option ForkInfo) (k : SlotHashKey)
    (stakeVotedAt : ℕ) (children : List SlotHashKey) (a : Aggregation) : Prop where
  stake : a.stakeVotedSubtree = stakeVotedAt + (children.map (weight look)).sum
  confirmed : a.isDuplicateConfirmed = children.any (confirmed look)
  best : (a.bestChildSlotKey = k ∧ a.bestSlotHashKey = k ∧
      ∀ c ∈ children, candidate look c = false) ∨
    IsBestChild look children a.bestChildSlotKey ∧
      a.bestChildStakeVotedSubtree = weight look a.bestChildSlotKey ∧
      (look a.bestChildSlotKey).map bestSlot = some a.bestSlotHashKey

lemma isBestChild_concat (hc : candidate look c = true)
    (h : ∀ c' ∈ l, candidate look c' = true → Outweighs look c c') :
    IsBestChild look (l ++ [c]) c :=
  ⟨mem_append_right l (mem_singleton.mpr rfl), hc, forall_mem_append.mpr
    ⟨fun c' hmem hcand _ ↦ h c' hmem hcand, forall_mem_singleton.mpr fun _ hne ↦ absurd rfl hne⟩⟩

lemma IsBestChild.concat (h : IsBestChild look l b) (hc : ForkInfos.candidate look c = true)
    (hcb : Outweighs look c b) : IsBestChild look (l ++ [c]) c := by
  refine isBestChild_concat hc fun c' hmem hcand ↦ ?_
  by_cases hbc : c' = b
  · exact hbc ▸ hcb
  · exact hcb.trans (h.outweighs c' hmem hcand hbc)

lemma IsBestChild.concat_of_not (h : IsBestChild look l b)
    (hc : ForkInfos.candidate look c = true → c ≠ b → Outweighs look b c) :
    IsBestChild look (l ++ [c]) b :=
  ⟨mem_append_left [c] h.mem, h.candidate,
    forall_mem_append.mpr ⟨h.outweighs, forall_mem_singleton.mpr hc⟩⟩

lemma isBestChild_concat_of_forall (h : ∀ c' ∈ l, candidate look c' = false)
    (hc : candidate look c = true) : IsBestChild look (l ++ [c]) c := by
  refine isBestChild_concat hc fun c' hmem hcand ↦ ?_
  rw [h c' hmem] at hcand
  cases hcand

variable {stakeVotedAt : ℕ} {a a' : Aggregation}

lemma AggregatedOver.step (h : AggregatedOver look k stakeVotedAt l a) (hl : ∀ c ∈ l, c ≠ k)
    (hstep : aggregateChild look k a c = some a') :
    AggregatedOver look k stakeVotedAt (l ++ [c]) a' := by
  simp only [aggregateChild, bind_eq_some, checkedAdd_eq_some] at hstep
  obtain ⟨info, hinfo, stake, ⟨-, rfl⟩, hstep⟩ := hstep
  have hweight := weight_of_some hinfo
  have hcand := candidate_of_some hinfo
  have hsum : a.stakeVotedSubtree + info.stakeVotedSubtree =
      stakeVotedAt + ((l ++ [c]).map (weight look)).sum := by
    rw [h.stake, map_append, sum_append, map_singleton, sum_singleton, hweight, Nat.add_assoc]
  have hany : (a.isDuplicateConfirmed || info.isDuplicateConfirmed) =
      (l ++ [c]).any (ForkInfos.confirmed look) := by
    rw [h.confirmed, any_append, any_cons, any_nil, Bool.or_false, confirmed_of_some hinfo]
  split_ifs at hstep with hbetter
  · cases hstep
    refine ⟨hsum, hany, .inr ⟨?_, hweight.symm, by rw [hinfo, map_some]⟩⟩
    have hc : candidate look c = true := hcand.trans hbetter.1
    rcases h.best with ⟨-, -, hnone⟩ | ⟨hbest, hstake, -⟩
    · exact isBestChild_concat_of_forall hnone hc
    refine hbest.concat hc ?_
    rw [hstake, ← hweight] at hbetter
    rcases hbetter.2 with heq | hgt | ⟨heq, hlt⟩
    · exact absurd heq (hl _ hbest.mem)
    · exact .inl hgt
    · exact .inr ⟨heq.symm, hlt⟩
  cases hstep
  refine ⟨hsum, hany, ?_⟩
  rcases h.best with ⟨hkey, hslot, hnone⟩ | ⟨hbest, hstake, hslot⟩
  · refine .inl ⟨hkey, hslot, forall_mem_append.mpr ⟨hnone, forall_mem_singleton.mpr ?_⟩⟩
    rw [hcand, Bool.eq_false_iff]
    exact fun htrue ↦ hbetter ⟨htrue, .inl hkey⟩
  refine .inr ⟨hbest.concat_of_not fun hc hne ↦ ?_, hstake, hslot⟩
  rw [hstake, ← hweight, ← hcand] at hbetter
  refine (outweighs_or_outweighs hne.symm).resolve_right fun hout ↦ hbetter ⟨hc, .inr ?_⟩
  rcases hout with hlt | ⟨heq, hlt⟩
  · exact .inl hlt
  · exact .inr ⟨heq.symm, hlt⟩

lemma aggregatedOver_foldlM (hl : ∀ c ∈ l, c ≠ k)
    (hfold : l.foldlM (aggregateChild look k) ⟨stakeVotedAt, 0, k, k, false⟩ = some a) :
    AggregatedOver look k stakeVotedAt l a := by
  induction l using List.reverseRecOn generalizing a with
  | nil =>
    cases hfold
    exact ⟨rfl, rfl, .inl ⟨rfl, rfl, forall_mem_nil _⟩⟩
  | append_singleton l c ih =>
    simp only [foldlM_append, foldlM_cons, foldlM_nil, bind_pure, bind_eq_some] at hfold
    obtain ⟨a₁, hfold, hstep⟩ := hfold
    obtain ⟨hl, -⟩ := forall_mem_append.mp hl
    exact (ih hl hfold).step hl hstep

/-- A node after aggregation: its weight and best slot are those of its children, and it is
confirmed if a child is. -/
structure Aggregated (look : SlotHashKey → Option ForkInfo) (k : SlotHashKey)
    (info info' : ForkInfo) : Prop where
  stakeVotedAt : info'.stakeVotedAt = info.stakeVotedAt
  stakeVotedSubtree : info'.stakeVotedSubtree =
    info.stakeVotedAt + (info.children.map (weight look)).sum
  bestSlot : IsBestSlot look k info.children info'.bestSlot
  parent : info'.parent = info.parent
  children : info'.children = info.children
  latestInvalidAncestor : info'.latestInvalidAncestor =
    if info.children.any (confirmed look) then none else info.latestInvalidAncestor
  isDuplicateConfirmed : info'.isDuplicateConfirmed =
    (info.isDuplicateConfirmed || info.children.any (confirmed look))

lemma aggregate_eq_some (hchildren : ∀ c ∈ info.children, c ≠ k)
    (h : aggregate look k info = some info') : Aggregated look k info info' := by
  simp only [aggregate, bind_eq_some, pure_eq_some] at h
  obtain ⟨a, ha, rfl⟩ := h
  have hover := aggregatedOver_foldlM hchildren ha
  have hbest : IsBestSlot look k info.children a.bestSlotHashKey := by
    rcases hover.best with ⟨-, hslot, hnone⟩ | ⟨hbest, -, hslot⟩
    · exact .inl ⟨hnone, hslot⟩
    · exact .inr ⟨_, hbest, hslot⟩
  cases hconfirmed : a.isDuplicateConfirmed with
  | true =>
    have hany := hover.confirmed.symm.trans hconfirmed
    exact ⟨rfl, hover.stake, hbest, rfl, rfl, by simp [hany, setDuplicateConfirmed],
      by simp [hany, setDuplicateConfirmed]⟩
  | false =>
    have hany := hover.confirmed.symm.trans hconfirmed
    exact ⟨rfl, hover.stake, hbest, rfl, rfl, by simp [hany], by simp [hany]⟩

/-! ### Operations on one node -/

lemma aggregate_congr (h : ∀ c ∈ info.children, look c = look' c) :
    aggregate look k info = aggregate look' k info := by
  have hfold : ∀ (l : List SlotHashKey) (a : Aggregation), (∀ c ∈ l, look c = look' c) →
      l.foldlM (aggregateChild look k) a = l.foldlM (aggregateChild look' k) a := by
    intro l
    induction l with
    | nil => exact fun a _ ↦ rfl
    | cons c l ih =>
      intro a hl
      have hstep : aggregateChild look k a c = aggregateChild look' k a c := by
        rw [aggregateChild, aggregateChild, hl c mem_cons_self]
      rw [foldlM_cons, foldlM_cons, hstep]
      exact congrArg _ (funext fun a' ↦ ih a' fun c' hc' ↦ hl c' (mem_cons_of_mem c hc'))
  rw [aggregate, aggregate, hfold _ _ h]

variable {operation : UpdateOperation}

lemma applyOperation_congr (h : ∀ c ∈ info.children, look c = look' c) :
    applyOperation look k operation info = applyOperation look' k operation info := by
  cases operation with
  | aggregate => exact aggregate_congr h
  | _ => rfl

variable {slot : Slot}

lemma updateWithNewlyInvalidAncestor_eq_some
    (h : info.updateWithNewlyInvalidAncestor slot = some info') :
    info.isDuplicateConfirmed = false ∧ info' = { info with
      latestInvalidAncestor := some (info.latestInvalidAncestor.elim slot (max slot)) } := by
  rw [updateWithNewlyInvalidAncestor] at h
  cases hlatest : info.latestInvalidAncestor with
  | none =>
    rw [hlatest] at h
    split_ifs at h with hconfirmed
    · exact ⟨by simpa using hconfirmed, (some.inj h).symm⟩
    · exact absurd rfl (by assumption)
  | some latest =>
    rw [hlatest] at h
    split_ifs at h with hconfirmed hlt
    · have hlt : latest < slot := by simpa using hlt
      refine ⟨by simpa using hconfirmed, (some.inj h).symm.trans ?_⟩
      rw [elim_some, max_eq_left hlt.le]
    have hle : slot ≤ latest := by simpa using hlt
    refine ⟨by simpa using hconfirmed, (some.inj h).symm.trans ?_⟩
    rw [elim_some, max_eq_right hle, ← hlatest]

variable {stake : ℕ}

lemma addSlotStake_eq_some (h : addSlotStake stake info = some info') :
    info' = { info with
      stakeVotedAt := info.stakeVotedAt + stake
      stakeVotedSubtree := info.stakeVotedSubtree + stake } := by
  simp only [addSlotStake, bind_eq_some, checkedAdd_eq_some, pure_eq_some] at h
  obtain ⟨_, ⟨-, rfl⟩, _, ⟨-, rfl⟩, rfl⟩ := h
  rfl

lemma subtractSlotStake_eq_some : subtractSlotStake stake info = some info' ↔
      stake ≤ info.stakeVotedAt ∧ stake ≤ info.stakeVotedSubtree ∧ { info with
        stakeVotedAt := info.stakeVotedAt - stake
        stakeVotedSubtree := info.stakeVotedSubtree - stake } = info' := by
  simp only [subtractSlotStake, bind_eq_some, checkedSub_eq_some, pure_eq_some]
  constructor
  · rintro ⟨_, ⟨h₁, rfl⟩, _, ⟨h₂, rfl⟩, h⟩
    exact ⟨h₁, h₂, h⟩
  rintro ⟨h₁, h₂, h⟩
  exact ⟨_, ⟨h₁, rfl⟩, _, ⟨h₂, rfl⟩, h⟩

lemma markForkValid_eq : markForkValid k slot info = { info with
    latestInvalidAncestor := info.latestInvalidAncestor.filter fun latest ↦ decide (slot < latest)
    isDuplicateConfirmed := info.isDuplicateConfirmed || decide (k.slot = slot) } := by
  have hupdate : info.updateWithNewlyValidAncestor slot = { info with
      latestInvalidAncestor :=
        info.latestInvalidAncestor.filter fun latest ↦ decide (slot < latest) } := by
    obtain ⟨_, _, _, _, _, latest, _⟩ := info
    cases latest with
    | none => rfl
    | some latest =>
      by_cases hle : latest ≤ slot
      · simp [updateWithNewlyValidAncestor, hle, Option.filter]
      · simp [updateWithNewlyValidAncestor, hle, Option.filter, Nat.lt_of_not_le hle]
  rw [markForkValid, hupdate]
  split_ifs with hslot
  · simp [hslot]
  · simp [hslot]

lemma applyOperation_pointers (h : applyOperation look k operation info = some info') :
    info'.parent = info.parent ∧ info'.children = info.children := by
  cases operation with
  | markValid slot =>
    obtain rfl := (some.inj h).symm.trans markForkValid_eq
    exact ⟨rfl, rfl⟩
  | markInvalid slot =>
    obtain ⟨-, rfl⟩ := updateWithNewlyInvalidAncestor_eq_some h
    exact ⟨rfl, rfl⟩
  | aggregate =>
    simp only [applyOperation, aggregate, bind_eq_some, pure_eq_some] at h
    obtain ⟨a, -, rfl⟩ := h
    cases a.isDuplicateConfirmed <;> exact ⟨rfl, rfl⟩
  | add stake =>
    obtain rfl := addSlotStake_eq_some h
    exact ⟨rfl, rfl⟩
  | subtract stake =>
    obtain ⟨-, -, rfl⟩ := subtractSlotStake_eq_some.mp h
    exact ⟨rfl, rfl⟩

/-! ### Processing a batch -/

variable {infos infos' : ForkInfos} {T : FiniteForest SlotHashKey} {operations : UpdateOperations}

/-- The operation with a label on a node, if the batch has it. -/
def applyLabel (look : SlotHashKey → Option ForkInfo) (operations : UpdateOperations)
    (k : SlotHashKey) (info : ForkInfo) (label : UpdateLabel) : Option ForkInfo :=
  match operations[(⟨k, label⟩ : UpdateKey)]? with
  | some operation => applyOperation look k operation info
  | none => some info

variable {u : UpdateKey}

lemma updateKey_le {v : UpdateKey} (h : u < v) : u.node ≤ v.node := by
  rcases Prod.Lex.toLex_lt_toLex.mp (show toLex (u.node, u.label) < toLex (v.node, v.label) from h)
    with h | ⟨h, -⟩
  · exact h.le
  · exact h.le

variable {label : UpdateLabel}

lemma updateKey_lt {label' : UpdateLabel} (h : label < label') :
    (⟨k, label⟩ : UpdateKey) < ⟨k, label'⟩ :=
  Prod.Lex.toLex_lt_toLex.mpr (.inr ⟨rfl, h⟩)

/-- What a batch does to a node: its operations in the order of their labels, with the final nodes
for the children. -/
theorem lookup_processUpdateOperations (hT : infos.Represents T) (labels : List UpdateLabel)
    (hsorted : labels.Pairwise fun a b ↦ b < a)
    (hlabels : ∀ (u : UpdateKey) operation, operations[u]? = some operation → u.label ∈ labels)
    (h : infos.processUpdateOperations operations = some infos') (hk : infos.lookup k = some info) :
    ∃ info', infos'.lookup k = some info' ∧
      labels.foldlM (applyLabel (fun k ↦ infos'.lookup k) operations k) info = some info' := by
  have hgreater : ∀ k info, infos.lookup k = some info → ∀ c ∈ info.children, k < c := by
    intro k info hk c hc
    rw [hT.children_eq hk] at hc
    exact FiniteForest.lt_of_mem_children hc
  obtain ⟨info', hinfo', hfold⟩ := Sweep.sweep (f := applyOperation)
    (P := fun k info ↦ ∀ c ∈ info.children, k < c)
    (fun look look' k operation info hP hlook ↦ applyOperation_congr fun c hc ↦ hlook c (hP c hc))
    (fun look k operation info info' hP happly ↦ by
      rw [(applyOperation_pointers happly).2]
      exact hP)
    (OrderedMap.pairwise_descending.imp updateKey_le) h hgreater hk
  refine ⟨info', hinfo', ?_⟩
  have hfilter := OrderedMap.filter_descending (m := operations)
    (p := fun u ↦ decide (u.node = k)) (labels.map fun label ↦ ⟨k, label⟩) ?_ ?_ ?_
  · rw [hfilter, filterMap_map, map_filterMap, foldlM_filterMap] at hfold
    rw [← hfold]
    refine congrArg (fun f ↦ labels.foldlM f info) (funext fun info ↦ funext fun label ↦ ?_)
    rw [applyLabel]
    cases hop : operations[(⟨k, label⟩ : UpdateKey)]? <;> simp [hop]
  · rw [pairwise_map]
    exact hsorted.imp updateKey_lt
  · intro u hu
    obtain ⟨label, -, rfl⟩ := mem_map.mp hu
    exact decide_eq_true rfl
  intro u operation hu hnode
  refine mem_map.mpr ⟨u.label, hlabels u operation hu, ?_⟩
  rw [← of_decide_eq_true hnode]

lemma Represents.processUpdateOperations (hT : infos.Represents T)
    (h : infos.processUpdateOperations operations = some infos') : infos'.Represents T := by
  refine foldlM_some_induction (P := fun infos : ForkInfos ↦ infos.Represents T) ?_ h hT
  intro entry _ infos infos' hT hstep
  refine hT.congr (fun k hk ↦ ?_) (fun k info hk ↦ ?_)
  · by_cases hnode : k = entry.1.node
    · subst hnode
      exact Sweep.lookup_modifyAt_of_none hstep hk
    · rw [Sweep.lookup_modifyAt_of_ne hstep hnode, hk]
  by_cases hnode : k = entry.1.node
  · subst hnode
    obtain ⟨info', happly, hk'⟩ := Sweep.lookup_modifyAt_of_some hstep hk
    exact ⟨info', hk', applyOperation_pointers happly⟩
  rw [Sweep.lookup_modifyAt_of_ne hstep hnode]
  exact ⟨info, hk, rfl, rfl⟩

/-! ### Aggregated nodes -/

section

variable (operations : UpdateOperations)

/-- The batch aggregates a node. -/
def Aggregates (k : SlotHashKey) : Prop :=
  operations[(⟨k, .aggregate⟩ : UpdateKey)]? = some .aggregate

/-- The batch has no other operation under the label of aggregations. -/
def AggregateTyped : Prop :=
  ∀ k operation, operations[(⟨k, .aggregate⟩ : UpdateKey)]? = some operation →
    operation = .aggregate

/-- A node after the aggregation of a batch, if the batch aggregates it. -/
def AggregatedIn (look : SlotHashKey → Option ForkInfo) (k : SlotHashKey) (info info' : ForkInfo) :
    Prop :=
  (Aggregates operations k → Aggregated look k info info') ∧
    (¬ Aggregates operations k → info' = info)

end

lemma applyLabel_aggregate (htyped : AggregateTyped operations)
    (hchildren : ∀ c ∈ info.children, c ≠ k)
    (h : applyLabel look operations k info .aggregate = some info') :
    AggregatedIn operations look k info info' := by
  rw [applyLabel] at h
  split at h
  · rename_i operation hoperation
    obtain rfl := htyped k operation hoperation
    exact ⟨fun _ ↦ aggregate_eq_some hchildren h, fun hnot ↦ absurd hoperation hnot⟩
  rename_i hnone
  refine ⟨fun haggregates ↦ ?_, fun _ ↦ (some.inj h).symm⟩
  rw [Aggregates, hnone] at haggregates
  cases haggregates

/-! ### Inserting aggregations -/

lemma mem_iff_getElem? : u ∈ operations ↔ ∃ o, operations[u]? = some o := by
  rw [← Std.TreeMap.isSome_getElem?_iff_mem, isSome_iff_exists]

/-- The operations of a mark on a node of the subtree. -/
def markEntry (label : UpdateLabel) (operation : UpdateOperation) (u : UpdateKey) :
    Option UpdateOperation :=
  if u.label = .aggregate then some .aggregate
  else if u.label = label then some operation
  else none

lemma getElem?_foldl_insertAggregateOperation (hlabel : label ≠ .aggregate) (u : UpdateKey) :
    (l.foldl (fun operations key ↦
        (insertAggregateOperation (some (label, operation)) operations key).1) ∅)[u]? =
      if u.node ∈ l then markEntry label operation u else none := by
  induction l using List.reverseRecOn generalizing u with
  | nil => simp
  | append_singleton l k ih =>
    rw [foldl_append, foldl_cons, foldl_nil, insertAggregateOperation]
    simp only [mem_append, mem_singleton]
    split_ifs with hmem hu hu
    · rw [ih u]
      rcases hu with hu | hk
      · rw [if_pos hu]
      obtain ⟨o, ho⟩ := mem_iff_getElem?.mp hmem
      rw [ih ⟨k, .aggregate⟩] at ho
      split_ifs at ho with hk'
      rw [if_pos (hk ▸ hk')]
    · rw [ih u, if_neg fun hu' ↦ hu (.inl hu')]
    · obtain ⟨n, label'⟩ := u
      simp only [OrderedMap.getElem?_insert, ih, markEntry, UpdateKey.mk.injEq]
      by_cases hn : n = k
      · by_cases h₁ : label' = .aggregate
        · simp [hn, h₁]
        by_cases h₂ : label' = label
        · simp [hn, h₂, hlabel]
        · simp [hn, h₁, h₂]
      · simp [hn, hu.resolve_right hn]
    obtain ⟨n, label'⟩ := u
    simp only [not_or] at hu
    simp [OrderedMap.getElem?_insert, ih, hu.1, hu.2]

/-- Across ancestors: the walk may end at an aggregated node, as the ancestors of that are
aggregated. -/
theorem getElem?_insertAcrossAncestors (htyped : AggregateTyped operations) (hpath : T.IsPath k l)
    (hclosed : ∀ n ∈ l, Aggregates operations n → ∀ a, T.IsAncestor a n → Aggregates operations a)
    (u : UpdateKey) : (insertAcrossAncestors l operations)[u]? =
      if u.label = .aggregate ∧ u.node ∈ l then some .aggregate else operations[u]? := by
  induction l generalizing k operations with
  | nil => simp [insertAcrossAncestors]
  | cons a l ih =>
    obtain ⟨-, hpath⟩ := hpath
    by_cases hmem : (⟨a, .aggregate⟩ : UpdateKey) ∈ operations
    · have hinsert : insertAcrossAncestors (a :: l) operations = operations := by
        simp only [insertAcrossAncestors, insertAggregateOperation, if_pos hmem]
      obtain ⟨o, ho⟩ := mem_iff_getElem?.mp hmem
      obtain rfl := htyped a o ho
      rw [hinsert]
      split_ifs with hu
      · obtain ⟨n, label⟩ := u
        obtain ⟨rfl, hn⟩ := hu
        rcases mem_cons.mp hn with rfl | hn
        · exact ho
        · exact hclosed a mem_cons_self ho n (hpath.mem_iff.mp hn)
      · rfl
    have hinsert : insertAcrossAncestors (a :: l) operations =
        insertAcrossAncestors l (operations.insert ⟨a, .aggregate⟩ .aggregate) := by
      simp only [insertAcrossAncestors, insertAggregateOperation, if_neg hmem]
    have hgreater : ∀ {n}, n ∈ l → n ≠ a := fun hn hna ↦
      absurd (hpath.mem_iff.mp hn).lt (hna ▸ lt_irrefl _)
    have htyped' : AggregateTyped (operations.insert ⟨a, .aggregate⟩ .aggregate) := by
      intro n o ho
      rw [OrderedMap.getElem?_insert] at ho
      split_ifs at ho
      · exact (some.inj ho).symm
      · exact htyped n o ho
    have hclosed' : ∀ n ∈ l, Aggregates (operations.insert ⟨a, .aggregate⟩ .aggregate) n →
        ∀ b, T.IsAncestor b n → Aggregates (operations.insert ⟨a, .aggregate⟩ .aggregate) b := by
      intro n hn hagg b hb
      have hold : Aggregates operations n := by
        unfold Aggregates at hagg
        rwa [OrderedMap.getElem?_insert, if_neg fun heq ↦
          hgreater hn (congrArg UpdateKey.node heq)] at hagg
      unfold Aggregates
      rw [OrderedMap.getElem?_insert]
      split_ifs
      · rfl
      · exact hclosed n (mem_cons_of_mem a hn) hold b hb
    rw [hinsert, ih htyped' hpath hclosed', OrderedMap.getElem?_insert]
    obtain ⟨n, label⟩ := u
    by_cases hlabel : label = .aggregate <;> by_cases hna : n = a <;> simp [hlabel, hna]

/-! ### The batch of a mark -/

lemma default_le (k : SlotHashKey) : default ≤ k := by
  show toLex ((0 : Slot), (default : Hash)) ≤ toLex (k.slot, k.hash)
  rw [Prod.Lex.toLex_le_toLex]
  rcases Nat.eq_zero_or_pos k.slot with h | h
  · refine .inr ⟨h.symm, ?_⟩
    show (default : Hash).bits.toNat ≤ k.hash.bits.toNat
    exact Nat.zero_le _
  · exact .inl h

lemma reachesAvoiding_default (hk : k ≠ default) :
    T.ReachesAvoiding default k c ↔ T.Above k c := by
  constructor
  · exact fun h ↦ h.1
  · exact fun h ↦ ⟨h, fun h' ↦ hk (le_antisymm h'.1.le (default_le k))⟩

def IsMarkBatch (T : FiniteForest SlotHashKey) (k : SlotHashKey) (label : UpdateLabel)
    (operation : UpdateOperation) (operations : UpdateOperations) : Prop :=
  (∀ u : UpdateKey, T.ReachesAvoiding default k u.node →
    operations[u]? = markEntry label operation u) ∧
  ∀ u : UpdateKey, ¬ T.ReachesAvoiding default k u.node → ∀ o, operations[u]? = some o ↔
      u.label = .aggregate ∧ o = .aggregate ∧ T.IsAncestor u.node k

lemma exists_markOperations (hT : infos.Represents T) (hk : k ∈ T.nodes)
    (operation : UpdateOperation) (hlabel : label ≠ .aggregate) :
    ∃ operations, infos.markOperations k label operation = some operations ∧
      IsMarkBatch T k label operation operations := by
  obtain ⟨subtree, hsubtree, hmem⟩ := hT.exists_subtreeDiff hk default
  obtain ⟨path, hpath, hpath'⟩ := hT.exists_ancestorIterator k
  have hinserted := @getElem?_foldl_insertAggregateOperation subtree operation label hlabel
  generalize hops : subtree.foldl (fun operations key ↦
    (insertAggregateOperation (some (label, operation)) operations key).1) ∅ = marked at hinserted
  have htyped : AggregateTyped marked := by
    intro n o ho
    rw [hinserted, markEntry] at ho
    split_ifs at ho
    · exact (Option.some.inj ho).symm
    · exact absurd rfl (by assumption)
  -- no ancestor of the node is in its subtree
  have hclosed : ∀ n ∈ path, Aggregates marked n → ∀ a, T.IsAncestor a n → Aggregates marked a := by
    intro n hn hagg
    unfold Aggregates at hagg
    rw [hinserted] at hagg
    split_ifs at hagg with hn'
    exact absurd (hpath'.mem_iff.mp hn).lt (not_lt.mpr ((hmem n).mp hn').1.le)
  have hacross := getElem?_insertAcrossAncestors htyped hpath' hclosed
  refine ⟨insertAcrossAncestors path marked, ?_, fun u hu ↦ ?_, fun u hu o ↦ ?_⟩
  · simp only [markOperations, insertAggregateOperations, hsubtree, hpath, some_bind,
      Option.pure_def, hops]
  · rw [hacross, hinserted, if_pos ((hmem u.node).mpr hu), if_neg]
    rintro ⟨-, hn⟩
    exact absurd (hpath'.mem_iff.mp hn).lt (not_lt.mpr hu.1.le)
  rw [hacross, hinserted, if_neg fun h ↦ hu ((hmem u.node).mp h)]
  split_ifs with h
  · simp [h.1, hpath'.mem_iff.mp h.2, eq_comm]
  simp only [false_iff]
  exact fun h' ↦ h ⟨h'.1, hpath'.mem_iff.mpr h'.2.2⟩

namespace IsMarkBatch

variable (hbatch : IsMarkBatch T k label operation operations)

include hbatch

variable {n : SlotHashKey}

lemma aggregates_iff :
    Aggregates operations n ↔ T.ReachesAvoiding default k n ∨ T.IsAncestor n k := by
  unfold Aggregates
  by_cases hn : T.ReachesAvoiding default k n
  · rw [hbatch.1 ⟨n, .aggregate⟩ hn, markEntry, if_pos rfl]
    simp [hn]
  rw [hbatch.2 ⟨n, .aggregate⟩ hn]
  simp [hn]

lemma aggregateTyped : AggregateTyped operations := by
  intro n o ho
  by_cases hn : T.ReachesAvoiding default k n
  · rw [hbatch.1 ⟨n, .aggregate⟩ hn, markEntry, if_pos rfl] at ho
    exact (some.inj ho).symm
  · exact ((hbatch.2 ⟨n, .aggregate⟩ hn o).mp ho).2.1

lemma label_mem (u : UpdateKey) (o : UpdateOperation) (ho : operations[u]? = some o) :
    u.label ∈ [label, .aggregate] := by
  by_cases hn : T.ReachesAvoiding default k u.node
  · rw [hbatch.1 u hn, markEntry] at ho
    split_ifs at ho with h₁ h₂
    · simp [h₁]
    · simp [h₂]
  · simp [((hbatch.2 u hn o).mp ho).1]

/-- What a mark does to a node: the mark in the subtree, then aggregation. -/
theorem lookup_processUpdateOperations (hT : infos.Represents T) (hlabel : .aggregate < label)
    (h : infos.processUpdateOperations operations = some infos') (hn : infos.lookup n = some info) :
    ∃ marked info', infos'.lookup n = some info' ∧
      (T.ReachesAvoiding default k n →
        applyOperation (fun k ↦ infos'.lookup k) n operation info = some marked) ∧
      (¬ T.ReachesAvoiding default k n → marked = info) ∧
      AggregatedIn operations (fun k ↦ infos'.lookup k) n marked info' := by
  obtain ⟨info', hinfo', hfold⟩ := ForkInfos.lookup_processUpdateOperations hT
    [label, .aggregate] (by simpa using hlabel) hbatch.label_mem h hn
  simp only [foldlM_cons, foldlM_nil, bind_eq_some, pure_eq_some] at hfold
  obtain ⟨marked, hmarked, _, hagg, rfl⟩ := hfold
  have hmark : (T.ReachesAvoiding default k n →
        applyOperation (fun k ↦ infos'.lookup k) n operation info = some marked) ∧
      (¬ T.ReachesAvoiding default k n → marked = info) := by
    rw [applyLabel] at hmarked
    constructor
    · intro hreach
      rw [hbatch.1 ⟨n, label⟩ hreach, markEntry, if_neg hlabel.ne', if_pos rfl] at hmarked
      exact hmarked
    intro hreach
    have hnone : operations[(⟨n, label⟩ : UpdateKey)]? = none := by
      rw [eq_none_iff_forall_ne_some]
      exact fun o ho ↦ hlabel.ne' ((hbatch.2 ⟨n, label⟩ hreach o).mp ho).1
    rw [hnone] at hmarked
    exact (some.inj hmarked).symm
  refine ⟨marked, _, hinfo', hmark.1, hmark.2, applyLabel_aggregate hbatch.aggregateTyped ?_ hagg⟩
  have hchildren : marked.children = info.children := by
    by_cases hreach : T.ReachesAvoiding default k n
    · exact (applyOperation_pointers (hmark.1 hreach)).2
    · rw [hmark.2 hreach]
  intro c hc
  rw [hchildren, hT.children_eq hn] at hc
  exact (FiniteForest.lt_of_mem_children hc).ne'

end IsMarkBatch

end Renec.ForkInfos
