import Renec.Collections.FiniteForest
import Renec.ForkChoice.State

/-!
# The tree of the fork choice

The parent and children pointers of the nodes represent a finite forest.

A batch of update operations leaves the pointers alone.
-/

namespace Renec.ForkInfos

open List FiniteForest

variable {infos infos' : ForkInfos} {T : FiniteForest SlotHashKey} {k p : SlotHashKey}
  {info info' : ForkInfo}

/-- The pointers of the nodes are those of a forest. -/
structure Represents (infos : ForkInfos) (T : FiniteForest SlotHashKey) : Prop where
  mem_nodes : ∀ {k : SlotHashKey}, k ∈ T.nodes ↔ k ∈ infos
  parent_eq : ∀ {k : SlotHashKey} {info : ForkInfo}, infos.lookup k = some info →
    info.parent = T.parent k
  children_eq : ∀ {k : SlotHashKey} {info : ForkInfo}, infos.lookup k = some info →
    info.children = T.children k

namespace Represents

variable (hT : infos.Represents T)

include hT

lemma exists_lookup (hk : k ∈ T.nodes) : ∃ info, infos.lookup k = some info :=
  Finmap.mem_iff.mp (hT.mem_nodes.mp hk)

lemma mem_of_lookup (hk : infos.lookup k = some info) : k ∈ T.nodes :=
  hT.mem_nodes.mpr (Finmap.mem_iff.mpr ⟨info, hk⟩)

lemma parent (k : SlotHashKey) : infos.parent k = T.parent k := by
  rw [ForkInfos.parent]
  cases hk : infos.lookup k with
  | none =>
    cases hp : T.parent k with
    | none => rfl
    | some p =>
      obtain ⟨info, hinfo⟩ := hT.exists_lookup (T.mem_nodes hp).1
      rw [hk] at hinfo
      cases hinfo
  | some info => exact hT.parent_eq hk

lemma keys_eq : infos.keys = T.nodes := by
  ext k
  rw [Finmap.mem_keys, hT.mem_nodes]

lemma lookup_child {c : SlotHashKey} (hc : c ∈ T.children k) :
    ∃ info, infos.lookup c = some info :=
  hT.exists_lookup (mem_nodes_of_mem_children hc)

lemma congr (hnone : ∀ k, infos.lookup k = none → infos'.lookup k = none)
    (hsome : ∀ k info, infos.lookup k = some info → ∃ info', infos'.lookup k = some info' ∧
      info'.parent = info.parent ∧ info'.children = info.children) :
    infos'.Represents T := by
  have hback : ∀ {k info'}, infos'.lookup k = some info' → ∃ info, infos.lookup k = some info ∧
      info'.parent = info.parent ∧ info'.children = info.children := by
    intro k info' hk
    cases hinfo : infos.lookup k with
    | none =>
      rw [hnone k hinfo] at hk
      cases hk
    | some info =>
      obtain ⟨info'', hk', h⟩ := hsome k info hinfo
      obtain rfl := Option.some.inj (hk.symm.trans hk')
      exact ⟨info, rfl, h⟩
  constructor
  · intro k
    rw [hT.mem_nodes, Finmap.mem_iff, Finmap.mem_iff]
    constructor
    · rintro ⟨info, hk⟩
      obtain ⟨info', hk', -⟩ := hsome k info hk
      exact ⟨info', hk'⟩
    rintro ⟨info', hk⟩
    obtain ⟨info, hk', -⟩ := hback hk
    exact ⟨info, hk'⟩
  · intro k info' hk
    obtain ⟨info, hk', hparent, -⟩ := hback hk
    rw [hparent, hT.parent_eq hk']
  intro k info' hk
  obtain ⟨info, hk', -, hchildren⟩ := hback hk
  rw [hchildren, hT.children_eq hk']

/-! ### Walks -/

omit hT in
lemma card_filter_le_parent (hp : T.parent k = some p) :
    (T.nodes.filter (· ≤ p)).card < (T.nodes.filter (· ≤ k)).card := by
  refine Finset.card_lt_card ((Finset.ssubset_iff_of_subset ?_).mpr ⟨k, ?_, ?_⟩)
  · intro x hx
    rw [Finset.mem_filter] at hx ⊢
    exact ⟨hx.1, hx.2.trans (T.parent_lt hp).le⟩
  · exact Finset.mem_filter.mpr ⟨(T.mem_nodes hp).1, le_refl k⟩
  intro hk
  exact absurd (T.parent_lt hp) (not_lt.mpr (Finset.mem_filter.mp hk).2)

lemma exists_ancestorsFrom {rounds : ℕ} (h : (T.nodes.filter (· ≤ k)).card < rounds) :
    ∃ l, infos.ancestorsFrom rounds k = some l ∧ T.IsPath k l := by
  induction rounds generalizing k with
  | zero => exact absurd h (Nat.not_lt_zero _)
  | succ rounds ih =>
    rw [ancestorsFrom, hT.parent k]
    cases hp : T.parent k with
    | none => exact ⟨[], rfl, hp⟩
    | some p =>
      have hlt := card_filter_le_parent hp
      obtain ⟨l, hl, hpath⟩ := ih (k := p) (by omega)
      exact ⟨p :: l, by simp only [hl, Option.map_some], hp, hpath⟩

lemma exists_ancestorIterator (k : SlotHashKey) :
    ∃ l, infos.ancestorIterator k = some l ∧ T.IsPath k l := by
  refine hT.exists_ancestorsFrom (Nat.lt_succ_of_le ?_)
  rw [hT.keys_eq]
  exact Finset.card_le_card (Finset.filter_subset _ _)

lemma exists_subtreeDiffLoop {r : SlotHashKey} (rounds : ℕ)
    (pending reachable : List SlotHashKey) (hpending : ∀ n ∈ pending, n ∈ T.nodes)
    (hrounds : (pending.map fun n ↦ (T.subtree n).card).sum ≤ rounds) :
    ∃ l, infos.subtreeDiffLoop r rounds pending reachable = some l ∧
      ∀ m, m ∈ l ↔ m ∈ reachable ∨ ∃ n ∈ pending, T.ReachesAvoiding r n m := by
  induction rounds generalizing pending reachable with
  | zero =>
    cases pending with
    | nil => exact ⟨reachable, rfl, by simp⟩
    | cons n pending =>
      have hcard := card_subtree (hpending n mem_cons_self)
      rw [map_cons, sum_cons] at hrounds
      omega
  | succ rounds ih =>
    cases pending with
    | nil => exact ⟨reachable, rfl, by simp⟩
    | cons n pending =>
      have hn := hpending n mem_cons_self
      have hpending := fun n' hn' ↦ hpending n' (mem_cons_of_mem n hn')
      have hcard := card_subtree hn
      rw [map_cons, sum_cons] at hrounds
      rw [subtreeDiffLoop]
      split_ifs with hnr
      · obtain ⟨l, hl, hmem⟩ := ih pending reachable hpending (by omega)
        refine ⟨l, hl, fun m ↦ ?_⟩
        subst hnr
        rw [hmem m, exists_mem_cons_iff, or_iff_right not_reachesAvoiding_self]
      obtain ⟨info, hinfo⟩ := hT.exists_lookup hn
      rw [hinfo, some_bind, hT.children_eq hinfo]
      have hnodes : ∀ n' ∈ (T.children n).reverse ++ pending, n' ∈ T.nodes := by
        intro n' hn'
        rcases mem_append.mp hn' with h | h
        · exact mem_nodes_of_mem_children (mem_reverse.mp h)
        · exact hpending n' h
      obtain ⟨l, hl, hmem⟩ := ih _ (reachable.insert n) hnodes (by
        rw [map_append, sum_append, map_reverse, sum_reverse]
        omega)
      refine ⟨l, hl, fun m ↦ ?_⟩
      rw [hmem m, mem_insert_iff, exists_mem_cons_iff,
        reachesAvoiding_iff_children hnr]
      simp only [mem_append, mem_reverse, or_and_right, exists_or, or_assoc]
      exact or_left_comm

lemma exists_subtreeDiff (hk : k ∈ T.nodes) (r : SlotHashKey) :
    ∃ l, infos.subtreeDiff k r = some l ∧ ∀ m, m ∈ l ↔ T.ReachesAvoiding r k m := by
  rw [subtreeDiff, if_pos (hT.mem_nodes.mp hk), hT.keys_eq]
  obtain ⟨l, hl, hmem⟩ := hT.exists_subtreeDiffLoop (r := r) T.nodes.card [k] []
    (by simpa using hk) (by simpa using card_subtree_le)
  exact ⟨l, hl, fun m ↦ by simp [hmem m]⟩

end Represents

end Renec.ForkInfos
