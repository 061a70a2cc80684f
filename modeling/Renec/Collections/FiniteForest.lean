import Renec.Collections.Forest

/-!
# Finite forests

A forest with finitely many nodes that also lists the children of each. The two directions agree, so
facts about ancestors and facts about subtrees can be used together: the subtree of a node is the
node and the disjoint subtrees of its children, and a function that is given at each node by its
values at the children is a sum over the subtree (`eq_sum_subtree`).
-/

open Finset List

/-- A forest with finitely many nodes and lists of children. -/
structure FiniteForest (α : Type*) [LinearOrder α] extends Forest α where
  nodes : Finset α
  /-- The children of a node, in some order. -/
  children : α → List α
  /-- Only nodes have parents, and only nodes are parents. -/
  mem_nodes : ∀ {n p : α}, parent n = some p → n ∈ nodes ∧ p ∈ nodes
  mem_children : ∀ {c p : α}, c ∈ children p ↔ parent c = some p
  nodup_children : ∀ p : α, (children p).Nodup

namespace FiniteForest

variable {α : Type*} [LinearOrder α] {T : FiniteForest α} {a c c₁ c₂ n m p k r : α}

/-! ### Children -/

lemma lt_of_mem_children (h : c ∈ T.children p) : p < c := T.parent_lt (T.mem_children.mp h)

lemma mem_nodes_of_mem_children (h : c ∈ T.children p) : c ∈ T.nodes :=
  (T.mem_nodes (T.mem_children.mp h)).1

lemma above_iff_children : T.Above n m ↔ m = n ∨ ∃ c ∈ T.children n, T.Above c m := by
  constructor
  · intro h
    rcases Relation.ReflTransGen.cases_tail h with rfl | ⟨c, hc, hup⟩
    · exact .inl rfl
    · exact .inr ⟨c, T.mem_children.mpr hup, hc⟩
  rintro (rfl | ⟨c, hc, h⟩)
  · exact Forest.Above.refl m
  · exact (Forest.isAncestor_of_parent (T.mem_children.mp hc)).above.trans h

lemma not_above_of_mem_children (hc : c ∈ T.children n) : ¬ T.Above c n := fun h ↦
  absurd (lt_of_mem_children hc) (not_lt.mpr h.le)

lemma eq_of_above (h₁ : c₁ ∈ T.children n) (h₂ : c₂ ∈ T.children n) (hm₁ : T.Above c₁ m)
    (hm₂ : T.Above c₂ m) : c₁ = c₂ := by
  have key : ∀ {x y : α}, x ∈ T.children n → y ∈ T.children n → T.Above x y → x = y := by
    intro x y hx hy hxy
    by_contra hne
    obtain ⟨p, hp, hxp⟩ := Forest.isAncestor_iff.mp (hxy.isAncestor_of_ne hne)
    obtain rfl := Option.some.inj (hp.symm.trans (T.mem_children.mp hy))
    exact not_above_of_mem_children hx hxp
  rcases hm₁.total hm₂ with h | h
  · exact key h₁ h₂ h
  · exact (key h₂ h₁ h).symm

lemma exists_child_of_above (h : T.Above n m) (hne : m ≠ n) : ∃ c ∈ T.children n, T.Above c m :=
  (above_iff_children.mp h).resolve_left hne

/-! ### Paths -/

/-- A list of all ancestors of a node, nearest first. -/
def IsPath (T : FiniteForest α) : α → List α → Prop
  | n, [] => T.parent n = none
  | n, p :: l => T.parent n = some p ∧ T.IsPath p l

lemma IsPath.mem_iff {l : List α} (h : T.IsPath n l) : a ∈ l ↔ T.IsAncestor a n := by
  induction l generalizing n with
  | nil =>
    rw [Forest.isAncestor_iff, show T.parent n = none from h]
    simp
  | cons p l ih =>
    obtain ⟨hp, hl⟩ := h
    rw [List.mem_cons, ih hl, ← Forest.above_iff, Forest.isAncestor_iff, hp]
    simp

/-- A node is reached from another one without passing through a third. -/
def ReachesAvoiding (T : FiniteForest α) (r n m : α) : Prop :=
  T.Above n m ∧ ¬ (T.Above n r ∧ T.Above r m)

lemma not_reachesAvoiding_self : ¬ T.ReachesAvoiding r r m := fun h ↦
  h.2 ⟨Forest.Above.refl r, h.1⟩

lemma reachesAvoiding_iff_children (hne : n ≠ r) :
    T.ReachesAvoiding r n m ↔ m = n ∨ ∃ c ∈ T.children n, T.ReachesAvoiding r c m := by
  constructor
  · rintro ⟨h, hr⟩
    rcases above_iff_children.mp h with rfl | ⟨c, hc, hcm⟩
    · exact .inl rfl
    refine .inr ⟨c, hc, hcm, fun h' ↦ hr ⟨?_, h'.2⟩⟩
    exact above_iff_children.mpr (.inr ⟨c, hc, h'.1⟩)
  rintro (rfl | ⟨c, hc, hcm, hr⟩)
  · exact ⟨Forest.Above.refl m, fun h ↦ hne (le_antisymm h.1.le h.2.le)⟩
  refine ⟨above_iff_children.mpr (.inr ⟨c, hc, hcm⟩), fun h ↦ ?_⟩
  obtain ⟨c', hc', hc'r⟩ := exists_child_of_above h.1 hne.symm
  obtain rfl := eq_of_above hc hc' hcm (hc'r.trans h.2)
  exact hr ⟨hc'r, h.2⟩

/-! ### Subtrees -/

variable (T) in
open Classical in
/-- The nodes under a node, and the node. -/
noncomputable def subtree (n : α) : Finset α := T.nodes.filter (T.Above n ·)

lemma mem_subtree : m ∈ T.subtree n ↔ m ∈ T.nodes ∧ T.Above n m := by
  classical exact mem_filter

lemma mem_nodes_of_above (hm : m ∈ T.nodes) (h : T.Above n m) : n ∈ T.nodes := by
  rcases Relation.ReflTransGen.cases_tail h with rfl | ⟨c, -, hup⟩
  · exact hm
  · exact (T.mem_nodes hup).2

lemma sum_subtree {M : Type*} [AddCommMonoid M] (g : α → M) (hn : n ∈ T.nodes) :
    ∑ m ∈ T.subtree n, g m = g n + ((T.children n).map fun c ↦ ∑ m ∈ T.subtree c, g m).sum := by
  have hsplit : T.subtree n = insert n ((T.children n).toFinset.biUnion T.subtree) := by
    ext m
    simp only [mem_insert, mem_biUnion, mem_toFinset, mem_subtree]
    rw [above_iff_children]
    constructor
    · rintro ⟨hm, rfl | ⟨c, hc, h⟩⟩
      · exact .inl rfl
      · exact .inr ⟨c, hc, hm, h⟩
    rintro (rfl | ⟨c, hc, hm, h⟩)
    · exact ⟨hn, .inl rfl⟩
    · exact ⟨hm, .inr ⟨c, hc, h⟩⟩
  have hnot : n ∉ (T.children n).toFinset.biUnion T.subtree := by
    simp only [mem_biUnion, mem_toFinset, mem_subtree]
    rintro ⟨c, hc, -, h⟩
    exact not_above_of_mem_children hc h
  have hdisjoint : Set.PairwiseDisjoint (↑(T.children n).toFinset) T.subtree := by
    intro c₁ hc₁ c₂ hc₂ hne
    simp only [mem_coe, mem_toFinset] at hc₁ hc₂
    refine disjoint_left.mpr fun m hm₁ hm₂ ↦ hne ?_
    exact eq_of_above hc₁ hc₂ (mem_subtree.mp hm₁).2 (mem_subtree.mp hm₂).2
  rw [hsplit, sum_insert hnot, sum_biUnion hdisjoint, sum_toFinset _ (T.nodup_children n)]

lemma card_subtree (hn : n ∈ T.nodes) :
    (T.subtree n).card = 1 + ((T.children n).map fun c ↦ (T.subtree c).card).sum := by
  simpa only [card_eq_sum_ones] using sum_subtree (fun _ ↦ 1) hn

lemma card_subtree_le : (T.subtree n).card ≤ T.nodes.card := by
  classical exact card_le_card (filter_subset _ _)

/-! ### Adding a leaf -/

/-- A new last child of a node. -/
def addLeaf (T : FiniteForest α) (p k : α) (hp : p ∈ T.nodes) (hk : k ∉ T.nodes) (hlt : p < k) :
    FiniteForest α where
  parent n := if n = k then some p else T.parent n
  parent_lt {n q} h := by
    split_ifs at h with hn
    · cases h
      exact hn ▸ hlt
    · exact T.parent_lt h
  nodes := insert k T.nodes
  children n := if n = p then T.children p ++ [k] else T.children n
  mem_nodes {n q} h := by
    split_ifs at h with hn
    · cases h
      exact ⟨mem_insert.mpr (.inl hn), mem_insert_of_mem hp⟩
    obtain ⟨h₁, h₂⟩ := T.mem_nodes h
    exact ⟨mem_insert_of_mem h₁, mem_insert_of_mem h₂⟩
  mem_children {c n} := by
    have hne : ∀ {x y : α}, T.parent x = some y → x ≠ k := fun hx hxk ↦
      hk (hxk ▸ (T.mem_nodes hx).1)
    by_cases hc : c = k
    · subst hc
      have hnot : ∀ n, c ∉ T.children n := fun n hmem ↦ hne (T.mem_children.mp hmem) rfl
      by_cases hn : n = p
      · simp [hn]
      · simp [hn, hnot, Ne.symm hn]
    by_cases hn : n = p
    · simp [hc, hn, T.mem_children]
    · simp [hc, hn, T.mem_children]
  nodup_children n := by
    have hnot : k ∉ T.children p := fun hmem ↦ hk (mem_nodes_of_mem_children hmem)
    split_ifs
    · exact nodup_append.mpr ⟨T.nodup_children p, nodup_singleton k,
        fun x hx y hy hxy ↦ hnot (List.mem_singleton.mp hy ▸ hxy ▸ hx)⟩
    · exact T.nodup_children n

section

variable {hp : p ∈ T.nodes} {hk : k ∉ T.nodes} {hlt : p < k}

lemma parent_addLeaf_self : (T.addLeaf p k hp hk hlt).parent k = some p := if_pos rfl

lemma parent_addLeaf (hn : n ≠ k) : (T.addLeaf p k hp hk hlt).parent n = T.parent n := if_neg hn

end

end FiniteForest
