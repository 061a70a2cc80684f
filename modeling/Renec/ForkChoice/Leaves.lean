import Renec.ForkChoice.Batches

/-!
# Marks of a leaf

A block that has just been replayed is a leaf of the fork choice. This file says that adding it and
marking it does not panic, and what the marks leave at the leaf: a valid mark confirms it and makes
it a candidate, an invalid mark is refused by a confirmed leaf only.
-/

namespace Renec

open FiniteForest List

open Finmap

open Option

variable {T : FiniteForest SlotHashKey} {l : List SlotHashKey} {infos infos' : ForkInfos}
  {info : ForkInfo} {k p n : SlotHashKey}

namespace ForkInfos

variable {info' : ForkInfo} {look : SlotHashKey → Option ForkInfo}

/-! ### Weights -/

/-- What a mark leaves alone: the weights and the children. -/
def shape (info : ForkInfo) : ℕ × ℕ × List SlotHashKey :=
  (info.stakeVotedAt, info.stakeVotedSubtree, info.children)

structure WeighedNode (look : SlotHashKey → Option ForkInfo) (info : ForkInfo) : Prop where
  sum : info.stakeVotedSubtree = info.stakeVotedAt + (info.children.map (weight look)).sum
  fits : info.stakeVotedSubtree < 2 ^ 64

def Weighed (infos : ForkInfos) : Prop :=
  ∀ n info, infos.lookup n = some info → WeighedNode (fun k ↦ infos.lookup k) info

def SameShape (infos infos' : ForkInfos) : Prop :=
  ∀ n, (infos'.lookup n).map shape = (infos.lookup n).map shape

lemma SameShape.weight_eq (h : SameShape infos infos') (n : SlotHashKey) :
    weight (fun k ↦ infos'.lookup k) n = weight (fun k ↦ infos.lookup k) n := by
  have hweight : ∀ look : SlotHashKey → Option ForkInfo,
      weight look n = ((look n).map shape).elim 0 fun s ↦ s.2.1 := by
    intro look
    rw [weight]
    cases look n <;> rfl
  rw [hweight, hweight, h n]

lemma SameShape.of_lookup (h : SameShape infos infos') (hn : infos'.lookup n = some info') :
    ∃ info, infos.lookup n = some info ∧ shape info' = shape info := by
  have hshape := h n
  rw [hn, map_some, eq_comm, map_eq_some_iff] at hshape
  obtain ⟨info, hinfo, heq⟩ := hshape
  exact ⟨info, hinfo, heq.symm⟩

lemma SameShape.weighed (h : SameShape infos infos') (hw : Weighed infos) : Weighed infos' := by
  intro n info' hn
  obtain ⟨info, hinfo, hshape⟩ := h.of_lookup hn
  obtain ⟨hat, hsub, hchildren⟩ : info'.stakeVotedAt = info.stakeVotedAt ∧
      info'.stakeVotedSubtree = info.stakeVotedSubtree ∧ info'.children = info.children := by
    simpa [shape] using hshape
  have hmap : info.children.map (weight fun k ↦ infos'.lookup k) =
      info.children.map (weight fun k ↦ infos.lookup k) :=
    map_congr_left fun c _ ↦ h.weight_eq c
  refine ⟨?_, ?_⟩
  · rw [hat, hsub, hchildren, hmap]
    exact (hw n info hinfo).sum
  rw [hsub]
  exact (hw n info hinfo).fits

lemma exists_foldlM_aggregateChild (hlook : ∀ c ∈ l, ∃ info, look c = some info) {a : Aggregation}
    (hfit : a.stakeVotedSubtree + (l.map (weight look)).sum < 2 ^ 64) :
    ∃ a', l.foldlM (aggregateChild look k) a = some a' := by
  induction l generalizing a with
  | nil => exact ⟨a, rfl⟩
  | cons c l ih =>
    obtain ⟨⟨info, hinfo⟩, hlook⟩ := forall_mem_cons.mp hlook
    rw [map_cons, sum_cons, weight_of_some hinfo] at hfit
    obtain ⟨a₁, ha₁, hstake⟩ : ∃ a₁, aggregateChild look k a c = some a₁ ∧
        a₁.stakeVotedSubtree = a.stakeVotedSubtree + info.stakeVotedSubtree := by
      have hadd : checkedAdd 64 a.stakeVotedSubtree info.stakeVotedSubtree =
          some (a.stakeVotedSubtree + info.stakeVotedSubtree) :=
        checkedAdd_eq_some.mpr ⟨by omega, rfl⟩
      simp only [aggregateChild, hinfo, hadd, some_bind]
      split_ifs
      · exact ⟨_, rfl, rfl⟩
      · exact ⟨_, rfl, rfl⟩
    obtain ⟨a', ha'⟩ := ih hlook (a := a₁) (by rw [hstake]; omega)
    exact ⟨a', by rw [foldlM_cons, ha₁]; exact ha'⟩

lemma exists_aggregate (hlook : ∀ c ∈ info.children, ∃ info, look c = some info)
    (hfit : info.stakeVotedAt + (info.children.map (weight look)).sum < 2 ^ 64) :
    ∃ info', aggregate look k info = some info' := by
  obtain ⟨a, ha⟩ := exists_foldlM_aggregateChild (k := k) (a := ⟨info.stakeVotedAt, 0, k, k, false⟩)
    hlook hfit
  exact ⟨_, by rw [aggregate, ha]; rfl⟩

/-! ### The batch of a mark -/

section

variable {label : UpdateLabel} {operation : UpdateOperation} {operations : UpdateOperations}

lemma aggregate_lt_of_rank (h : 0 < (ofLex label.rank).1) : .aggregate < label :=
  Prod.Lex.lt_iff.mpr (.inl h)

section

variable (hbatch : IsMarkBatch T k label operation operations)

include hbatch

lemma IsMarkBatch.cases_of_leaf (hleaf : T.children k = []) {u : UpdateKey} {o : UpdateOperation}
    (ho : operations[u]? = some o) : o = .aggregate ∨ u.node = k ∧ o = operation := by
  by_cases hreach : T.ReachesAvoiding default k u.node
  · have hnode : u.node = k := by
      rcases above_iff_children.mp hreach.1 with heq | ⟨c, hc, -⟩
      · exact heq
      rw [hleaf] at hc
      cases hc
    rw [hbatch.1 u hreach, markEntry] at ho
    split_ifs at ho
    · exact .inl (some.inj ho).symm
    · exact .inr ⟨hnode, (some.inj ho).symm⟩
  · exact .inl ((hbatch.2 u hreach o).mp ho).2.1

/-- The mark of a leaf does not panic if the mark itself does not, for a leaf with a property that
the mark and the aggregation of the leaf keep. -/
theorem IsMarkBatch.exists_processUpdateOperations {Q : ForkInfo → Prop} (hT : infos.Represents T)
    (hw : Weighed infos) (hleaf : T.children k = [])
    (hmark : ∀ look info, Q info → ∃ info', applyOperation look k operation info = some info' ∧
      shape info' = shape info ∧ Q info')
    (haggregate : ∀ look info info', Q info → info.children = [] →
      Aggregated look k info info' → Q info') (hQ : ∀ info, infos.lookup k = some info → Q info) :
    ∃ infos', infos.processUpdateOperations operations = some infos' ∧ SameShape infos infos' := by
  obtain ⟨infos', hrun, hshape, -⟩ : ∃ infos', infos.processUpdateOperations operations =
      some infos' ∧ SameShape infos infos' ∧ ∀ info, infos'.lookup k = some info → Q info := by
    refine exists_foldlM_eq_some (fun e he m ⟨hm, hQm⟩ ↦ ?_) ⟨fun _ ↦ rfl, hQ⟩
    cases hlookup : m.lookup e.1.node with
    | none => exact ⟨m, by rw [Sweep.modifyAt, hlookup], hm, hQm⟩
    | some info =>
      obtain ⟨info₀, hinfo₀, hshape⟩ := hm.of_lookup hlookup
      have hchildren : info.children = T.children e.1.node := by
        rw [← hT.children_eq hinfo₀]
        exact congrArg (fun s ↦ s.2.2) hshape
      obtain ⟨info', happly, hshape', hQ'⟩ : ∃ info',
          applyOperation (fun k ↦ m.lookup k) e.1.node e.2 info = some info' ∧
            shape info' = shape info ∧ (e.1.node = k → Q info') := by
        rcases hbatch.cases_of_leaf hleaf (OrderedMap.mem_descending.mp he) with ho | ⟨hnode, ho⟩
        · have hwm := hm.weighed hw _ info hlookup
          have hlook : ∀ c ∈ info.children, ∃ i, m.lookup c = some i := by
            intro c hc
            rw [hchildren] at hc
            obtain ⟨i, hi⟩ := hT.lookup_child hc
            have hc := hm c
            rw [hi, map_some, map_eq_some_iff] at hc
            obtain ⟨i', hi', -⟩ := hc
            exact ⟨i', hi'⟩
          obtain ⟨info', hinfo'⟩ := exists_aggregate (k := e.1.node) hlook
            (lt_of_eq_of_lt hwm.sum.symm hwm.fits)
          have hagg := aggregate_eq_some (fun c hc ↦ by
            rw [hchildren] at hc
            exact (lt_of_mem_children hc).ne') hinfo'
          refine ⟨info', by rw [ho]; exact hinfo', ?_, fun hnode ↦ ?_⟩
          · rw [shape, shape, hagg.stakeVotedAt, hagg.stakeVotedSubtree, hagg.children, ← hwm.sum]
          rw [hnode] at hagg hchildren hlookup
          exact haggregate _ _ _ (hQm info hlookup) (hchildren.trans hleaf) hagg
        rw [hnode] at hlookup ⊢
        obtain ⟨info', happly, hshape', hQ'⟩ := hmark (fun k ↦ m.lookup k) info (hQm info hlookup)
        exact ⟨info', by rw [ho]; exact happly, hshape', fun _ ↦ hQ'⟩
      refine ⟨m.insert e.1.node info', ?_, fun j ↦ ?_, fun i hi ↦ ?_⟩
      · rw [Sweep.modifyAt_of_some hlookup, happly]
        rfl
      · by_cases hj : j = e.1.node
        · rw [hj, lookup_insert, hinfo₀, map_some, map_some, hshape', hshape]
        rw [lookup_insert_of_ne _ hj]
        exact hm j
      by_cases hk : k = e.1.node
      · rw [hk, lookup_insert] at hi
        exact some.inj hi ▸ hQ' hk.symm
      rw [lookup_insert_of_ne _ hk] at hi
      exact hQm i hi
  exact ⟨infos', hrun, hshape⟩

lemma IsMarkBatch.lookup_leaf (hT : infos.Represents T) (hleaf : T.children k = [])
    (hk : k ≠ default) (hlabel : .aggregate < label)
    (h : infos.processUpdateOperations operations = some infos') (hn : infos.lookup k = some info) :
    ∃ marked info', applyOperation (fun k ↦ infos'.lookup k) k operation info = some marked ∧
      infos'.lookup k = some info' ∧ info'.latestInvalidAncestor = marked.latestInvalidAncestor ∧
      info'.isDuplicateConfirmed = marked.isDuplicateConfirmed := by
  obtain ⟨marked, info', hinfo', hmarked, -, hagg⟩ :=
    hbatch.lookup_processUpdateOperations hT hlabel h hn
  have hreach : T.ReachesAvoiding default k k :=
    (reachesAvoiding_default hk).mpr (Forest.Above.refl k)
  have hagg := hagg.1 (hbatch.aggregates_iff.mpr (.inl hreach))
  have hchildren : marked.children = [] := by
    rw [(applyOperation_pointers (hmarked hreach)).2, hT.children_eq hn, hleaf]
  refine ⟨marked, info', hmarked hreach, hinfo', ?_, ?_⟩
  · rw [hagg.latestInvalidAncestor, hchildren]
    rfl
  rw [hagg.isDuplicateConfirmed, hchildren]
  exact Bool.or_false _

end

end

end ForkInfos

/-! ### Leaves -/

structure IsLeaf (infos : ForkInfos) (k : SlotHashKey) : Prop where
  positive : 0 < k.slot
  tree : ∃ T, infos.Represents T ∧ k ∈ T.nodes ∧ T.children k = []
  weighed : ForkInfos.Weighed infos

namespace IsLeaf

open ForkInfos

lemma ne_default (h : IsLeaf infos k) : k ≠ default := fun heq ↦
  absurd (congrArg SlotHashKey.slot heq) h.positive.ne'

/-- An invalid mark of a leaf that is not confirmed. -/
theorem markForkInvalidCandidate (h : IsLeaf infos k) (hlookup : infos.lookup k = some info)
    (hconfirmed : info.isDuplicateConfirmed = false)
    (hlatest : ∀ latest, info.latestInvalidAncestor = some latest → latest ≤ k.slot) :
    ∃ infos' info', infos.markForkInvalidCandidate k = some infos' ∧ IsLeaf infos' k ∧
      infos'.lookup k = some info' ∧ info'.isDuplicateConfirmed = false ∧
      info'.latestInvalidAncestor = some k.slot := by
  obtain ⟨T, hT, hk, hleaf⟩ := h.tree
  have hlabel : UpdateLabel.markInvalid k.slot ≠ .aggregate := nofun
  obtain ⟨operations, hops, hbatch⟩ := exists_markOperations hT hk (.markInvalid k.slot) hlabel
  obtain ⟨infos', hrun, hshape⟩ := hbatch.exists_processUpdateOperations
    (Q := fun info ↦ info.isDuplicateConfirmed = false) hT h.weighed hleaf
    (fun look info hQ ↦ by
      rw [applyOperation, ForkInfo.updateWithNewlyInvalidAncestor, hQ, if_neg Bool.false_ne_true]
      split_ifs
      · exact ⟨_, rfl, rfl, rfl⟩
      · exact ⟨_, rfl, rfl, hQ⟩)
    (fun look info info' hQ hchildren hagg ↦ by
      rw [hagg.isDuplicateConfirmed, hchildren, hQ]
      rfl)
    fun info' hinfo' ↦ some.inj (hlookup.symm.trans hinfo') ▸ hconfirmed
  obtain ⟨marked, info', hmarked, hinfo', hinvalid, hconf⟩ :=
    hbatch.lookup_leaf hT hleaf h.ne_default (aggregate_lt_of_rank (Nat.succ_pos _)) hrun hlookup
  obtain ⟨-, rfl⟩ := updateWithNewlyInvalidAncestor_eq_some hmarked
  refine ⟨infos', info', ?_, ⟨h.positive, ⟨T, hT.processUpdateOperations hrun, hk, hleaf⟩,
    hshape.weighed h.weighed⟩, hinfo', hconf.trans hconfirmed, hinvalid.trans ?_⟩
  · simp only [ForkInfos.markForkInvalidCandidate, hlookup, hconfirmed, hops]
    exact hrun
  cases hinfo : info.latestInvalidAncestor with
  | none => rfl
  | some latest => simp only [elim_some, max_eq_left (hlatest latest hinfo)]

/-- A valid mark of a leaf. -/
theorem markForkValidCandidate (h : IsLeaf infos k) (hlookup : infos.lookup k = some info)
    (hlatest : ∀ latest, info.latestInvalidAncestor = some latest → latest ≤ k.slot) :
    ∃ infos' confirmed info', infos.markForkValidCandidate k = some (infos', confirmed) ∧
      IsLeaf infos' k ∧ infos'.lookup k = some info' ∧ info'.isDuplicateConfirmed = true ∧
      info'.latestInvalidAncestor = none := by
  obtain ⟨T, hT, hk, hleaf⟩ := h.tree
  have hlabel : UpdateLabel.markValid k.slot ≠ .aggregate := nofun
  obtain ⟨operations, hops, hbatch⟩ := exists_markOperations hT hk (.markValid k.slot) hlabel
  obtain ⟨infos', hrun, hshape⟩ := hbatch.exists_processUpdateOperations
    (Q := fun _ ↦ True) hT h.weighed hleaf
    (fun look info _ ↦ ⟨_, rfl, by rw [markForkValid_eq]; rfl, trivial⟩)
    (fun _ _ _ _ _ _ ↦ trivial) fun _ _ ↦ trivial
  obtain ⟨marked, info', hmarked, hinfo', hinvalid, hconf⟩ :=
    hbatch.lookup_leaf hT hleaf h.ne_default (aggregate_lt_of_rank (Nat.succ_pos _)) hrun hlookup
  obtain rfl := (some.inj hmarked).symm.trans markForkValid_eq
  obtain ⟨path, hpath, hpath'⟩ := hT.exists_ancestorIterator k
  obtain ⟨confirmed, hconfirmed⟩ : ∃ confirmed, (k :: path).mapM (fun key ↦
      (infos.lookup key).map fun info ↦ (key, info.isDuplicateConfirmed)) = some confirmed := by
    refine exists_mapM_eq_some fun key hkey ↦ ?_
    have hmem : key ∈ T.nodes := by
      rcases mem_cons.mp hkey with rfl | hkey
      · exact hk
      · exact mem_nodes_of_above hk (hpath'.mem_iff.mp hkey).above
    obtain ⟨i, hi⟩ := hT.exists_lookup hmem
    exact ⟨_, by rw [hi]; rfl⟩
  refine ⟨infos', (confirmed.filter (!·.2)).map Prod.fst, info', ?_,
    ⟨h.positive, ⟨T, hT.processUpdateOperations hrun, hk, hleaf⟩, hshape.weighed h.weighed⟩,
    hinfo', hconf.trans (by simp), hinvalid.trans ?_⟩
  · simp only [ForkInfos.markForkValidCandidate, hpath, hconfirmed, hops, hrun, some_bind]
    rfl
  cases hinfo : info.latestInvalidAncestor with
  | none => rfl
  | some latest => simp [hlatest latest hinfo]

/-! ### New leaves -/

/-- A node without its best slot. -/
def forget (info : ForkInfo) : ForkInfo := { info with bestSlot := default }

/-- Nodes that differ in their best slots only. -/
def SameButBest (infos infos' : ForkInfos) : Prop :=
  ∀ n, (infos'.lookup n).map forget = (infos.lookup n).map forget

lemma SameButBest.exists_lookup (h : SameButBest infos infos') (hn : infos.lookup n = some info) :
    ∃ info', infos'.lookup n = some info' ∧ forget info' = forget info := by
  have hforget := h n
  rw [hn, map_some, map_eq_some_iff] at hforget
  exact hforget

lemma SameButBest.represents (h : SameButBest infos infos') (hT : infos.Represents T) :
    infos'.Represents T := by
  refine hT.congr (fun n hn ↦ ?_) fun n info hn ↦ ?_
  · have hforget := h n
    rw [hn, map_none, map_eq_none_iff] at hforget
    exact hforget
  obtain ⟨info', hn', hforget⟩ := h.exists_lookup hn
  have hparent := congrArg ForkInfo.parent hforget
  have hchildren := congrArg ForkInfo.children hforget
  exact ⟨info', hn', hparent, hchildren⟩

lemma SameButBest.sameShape (h : SameButBest infos infos') : SameShape infos infos' := by
  intro n
  have hshape : ∀ o : Option ForkInfo, o.map shape = (o.map forget).map shape := by
    rintro (_ | _) <;> rfl
  rw [hshape, hshape (infos.lookup n), h n]

lemma sameButBest_insert (hn : infos.lookup n = some info) (best : SlotHashKey) :
    SameButBest infos (infos.insert n { info with bestSlot := best }) := by
  intro j
  by_cases hj : j = n
  · rw [hj, lookup_insert, hn]
    rfl
  · rw [lookup_insert_of_ne _ hj]

lemma exists_propagateLoop {oldBest newBest : SlotHashKey} {rounds : ℕ}
    {next : Option SlotHashKey} (hT : infos.Represents T)
    (hnext : ∀ a, next = some a → a ∈ T.nodes ∧ (T.nodes.filter (· ≤ a)).card ≤ rounds) :
    ∃ infos', propagateLoop oldBest newBest rounds next infos = some infos' ∧
      SameButBest infos infos' := by
  induction rounds generalizing next infos with
  | zero =>
    cases next with
    | none => exact ⟨infos, by rw [propagateLoop], fun _ ↦ rfl⟩
    | some a =>
      obtain ⟨ha, hcard⟩ := hnext a rfl
      have hmem : a ∈ T.nodes.filter (· ≤ a) := Finset.mem_filter.mpr ⟨ha, le_refl a⟩
      exact absurd hcard (not_le.mpr (Finset.card_pos.mpr ⟨a, hmem⟩))
  | succ rounds ih =>
    cases next with
    | none => exact ⟨infos, by rw [propagateLoop], fun _ ↦ rfl⟩
    | some a =>
      obtain ⟨ha, hcard⟩ := hnext a rfl
      obtain ⟨info, hinfo⟩ := hT.exists_lookup ha
      simp only [propagateLoop, hinfo, some_bind]
      split_ifs with hbest
      · have hsame := sameButBest_insert hinfo newBest
        have hnext' : ∀ p, info.parent = some p →
            p ∈ T.nodes ∧ (T.nodes.filter (· ≤ p)).card ≤ rounds := by
          intro p hp
          rw [hT.parent_eq hinfo] at hp
          have hlt := Represents.card_filter_le_parent hp
          exact ⟨(T.mem_nodes hp).2, by omega⟩
        obtain ⟨infos', hloop, hsame'⟩ := ih (hsame.represents hT) hnext'
        exact ⟨infos', hloop, fun n ↦ (hsame' n).trans (hsame n)⟩
      · exact ⟨infos, rfl, fun _ ↦ rfl⟩

lemma exists_allM {f : SlotHashKey → Option Bool} (h : ∀ c ∈ l, ∃ b, f c = some b) :
    ∃ b, l.allM f = some b := by
  induction l with
  | nil => exact ⟨true, rfl⟩
  | cons c l ih =>
    obtain ⟨⟨b, hb⟩, hl⟩ := forall_mem_cons.mp h
    obtain ⟨b', hb'⟩ := ih hl
    rw [allM, hb]
    cases b with
    | true => exact ⟨b', hb'⟩
    | false => exact ⟨false, rfl⟩

lemma exists_propagateNewLeaf (hT : infos.Represents T) (hp : T.parent k = some p) :
    ∃ infos', infos.propagateNewLeaf k p = some infos' ∧ SameButBest infos infos' := by
  obtain ⟨hk, hpmem⟩ := T.mem_nodes hp
  obtain ⟨info, hinfo⟩ := hT.exists_lookup hk
  obtain ⟨parentInfo, hparent⟩ := hT.exists_lookup hpmem
  obtain ⟨best, hbest⟩ : ∃ best, infos.isBestChild k = some best := by
    simp only [isBestChild, hinfo, hT.parent, hp, hparent, some_bind]
    refine exists_allM fun c hc ↦ ?_
    rw [hT.children_eq hparent] at hc
    obtain ⟨childInfo, hchild⟩ := hT.lookup_child hc
    exact ⟨_, by rw [hchild]; rfl⟩
  simp only [propagateNewLeaf, hparent, hbest, some_bind]
  split_ifs
  · refine exists_propagateLoop hT fun a ha ↦ ?_
    cases ha
    rw [hT.keys_eq]
    exact ⟨hpmem, Finset.card_le_card (Finset.filter_subset _ _)⟩
  · exact ⟨infos, rfl, fun _ ↦ rfl⟩

/-- A new leaf is not confirmed, and has the invalid ancestors of its parent. -/
theorem exists_addNewLeafSlot {parentInfo : ForkInfo} (hT : infos.Represents T)
    (hw : Weighed infos) (hp : infos.lookup p = some parentInfo) (hk : k ∉ T.nodes)
    (hlt : p.slot < k.slot) :
    ∃ infos' info, infos.addNewLeafSlot k (some p) = some infos' ∧ IsLeaf infos' k ∧
      infos'.lookup k = some info ∧ info.isDuplicateConfirmed = false ∧
      info.latestInvalidAncestor = parentInfo.latestInvalidAncestor := by
  have hlt' : p < k := Prod.Lex.lt_iff.mpr (.inl hlt)
  have hpmem := hT.mem_of_lookup hp
  have hknone : infos.lookup k = none := lookup_eq_none.mpr fun h ↦ hk (hT.mem_nodes.mpr h)
  let leaf : ForkInfo := ⟨0, 0, k, some p, [], parentInfo.latestInvalidAncestor, false⟩
  let parent : ForkInfo := { parentInfo with children := parentInfo.children ++ [k] }
  let T' := T.addLeaf p k hpmem hk hlt'
  have hlookup : ∀ n, ((infos.insert k leaf).insert p parent).lookup n =
      if n = p then some parent else if n = k then some leaf else infos.lookup n := by
    intro n
    by_cases hnp : n = p
    · rw [if_pos hnp, hnp, lookup_insert]
    rw [if_neg hnp, lookup_insert_of_ne _ hnp]
    by_cases hnk : n = k
    · rw [if_pos hnk, hnk, lookup_insert]
    · rw [if_neg hnk, lookup_insert_of_ne _ hnk]
  have hT' : ForkInfos.Represents ((infos.insert k leaf).insert p parent) T' := by
    refine ⟨fun {n} ↦ ?_, fun {n info} hn ↦ ?_, fun {n info} hn ↦ ?_⟩
    · rw [mem_iff, hlookup]
      show n ∈ insert k T.nodes ↔ _
      rw [Finset.mem_insert]
      split_ifs with hnp hnk
      · exact ⟨fun _ ↦ ⟨_, rfl⟩, fun _ ↦ .inr (hnp ▸ hpmem)⟩
      · exact ⟨fun _ ↦ ⟨_, rfl⟩, fun _ ↦ .inl hnk⟩
      rw [hT.mem_nodes, mem_iff]
      exact or_iff_right hnk
    · rw [hlookup] at hn
      split_ifs at hn with hnp hnk
      · cases hn
        have hparent := hT.parent_eq hp
        rw [hnp, parent_addLeaf hlt'.ne]
        exact hparent
      · cases hn
        rw [hnk, parent_addLeaf_self]
      rw [parent_addLeaf hnk]
      exact hT.parent_eq hn
    rw [hlookup] at hn
    show info.children = if n = p then T.children p ++ [k] else T.children n
    split_ifs at hn ⊢ with hnp hnk
    · cases hn
      rw [← hT.children_eq hp]
    · cases hn
      rw [hnk]
      -- a key that is not in the forest has no children
      refine (eq_nil_iff_forall_not_mem.mpr fun c hc ↦ hk ?_).symm
      exact (T.mem_nodes (T.mem_children.mp hc)).2
    · exact hT.children_eq hn
  have hweight : ∀ c ∈ T.nodes,
      weight (fun j ↦ ((infos.insert k leaf).insert p parent).lookup j) c =
      weight (fun j ↦ infos.lookup j) c := by
    intro c hc
    have hck : c ≠ k := fun h ↦ hk (h ▸ hc)
    rw [weight, weight, hlookup]
    by_cases hcp : c = p
    · rw [if_pos hcp, hcp, hp]
      rfl
    · rw [if_neg hcp, if_neg hck]
  have hsum : ∀ n info, infos.lookup n = some info → info.children.map (weight fun j ↦
      ((infos.insert k leaf).insert p parent).lookup j) =
        info.children.map (weight fun j ↦ infos.lookup j) := by
    intro n info hn
    refine map_congr_left fun c hc ↦ hweight c ?_
    rw [hT.children_eq hn] at hc
    exact mem_nodes_of_mem_children hc
  have hw' : Weighed ((infos.insert k leaf).insert p parent) := by
    intro n info hn
    rw [hlookup] at hn
    split_ifs at hn with hnp hnk
    · cases hn
      have hleaf : weight (fun j ↦ ((infos.insert k leaf).insert p parent).lookup j) k = 0 := by
        rw [weight, hlookup, if_neg hlt'.ne', if_pos rfl]
        rfl
      refine ⟨?_, (hw p parentInfo hp).fits⟩
      rw [map_append, hsum p parentInfo hp, map_singleton, hleaf, sum_append,
        sum_singleton, Nat.add_zero]
      exact (hw p parentInfo hp).sum
    · cases hn
      exact ⟨rfl, Nat.two_pow_pos 64⟩
    · exact ⟨by rw [hsum n info hn]; exact (hw n info hn).sum, (hw n info hn).fits⟩
  obtain ⟨infos', hprop, hsame⟩ := exists_propagateNewLeaf hT' parent_addLeaf_self
  have hleaf : ((infos.insert k leaf).insert p parent).lookup k = some leaf := by
    rw [hlookup, if_neg hlt'.ne', if_pos rfl]
  obtain ⟨info, hinfo, hforget⟩ := hsame.exists_lookup hleaf
  refine ⟨infos', info, ?_, ⟨Nat.zero_lt_of_lt hlt, ⟨T', hsame.represents hT', ?_, ?_⟩,
    hsame.sameShape.weighed hw'⟩, hinfo, ?_, ?_⟩
  · have hpinsert : (infos.insert k leaf).lookup p = some parentInfo := by
      rw [lookup_insert_of_ne _ hlt'.ne, hp]
    have hnot : k ∉ infos := fun h ↦ hk (hT.mem_nodes.mpr h)
    rw [ForkInfos.addNewLeafSlot, if_neg hnot]
    simp only [bind_some, hp, isNone_some, bind_eq_bind]
    rw [hpinsert]
    exact hprop
  · exact Finset.mem_insert_self k T.nodes
  · rw [← hT'.children_eq hleaf]
  · have hconfirmed := congrArg ForkInfo.isDuplicateConfirmed hforget
    exact hconfirmed
  have hlatest := congrArg ForkInfo.latestInvalidAncestor hforget
  exact hlatest

end IsLeaf

end Renec
