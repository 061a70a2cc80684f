import Renec.Gossip.Consistency

/-!
# Convergence of gossip tables

If the node instances with one token have one timestamp, a value overrides another one if its `rank`
is greater, and the table keeps the values of the greatest rank, in whichever order they come
(`tables_converge`). Three node instances, two of which share a token but not the timestamp,
override each other in a circle (`overrides_in_circle`).
-/

namespace Renec.Gossip

open List Prod

variable {v : CrdsValue}

section

variable (hash : CrdsValue → Hash)

/-- What values of one label are compared by. -/
def rank (v : CrdsValue) : ℕ ×ₗ ℕ ×ₗ ℕ ×ₗ Hash :=
  match v.data with
  | .nodeInstance node =>
    toLex (node.timestamp, toLex (node.token, toLex (v.wallclock, hash v)))
  | _ => toLex (0, toLex (0, toLex (v.wallclock, hash v)))

/-- The instances of a node with one token have one timestamp. -/
def TokensConsistent (values : List CrdsValue) : Prop :=
  ∀ v ∈ values, ∀ w ∈ values, ∀ a b, v.data = .nodeInstance a → w.data = .nodeInstance b →
    a.fromKey = b.fromKey → a.token = b.token → a.timestamp = b.timestamp

variable {hash} {w : CrdsValue} {values : List CrdsValue}

lemma eq_of_rank_eq (hinj : hash v = hash w → v = w) (h : rank hash v = rank hash w) : v = w := by
  refine hinj ?_
  have hlast : ∀ v : CrdsValue, (ofLex (ofLex (ofLex (rank hash v)).2).2).2 = hash v := by
    rintro ⟨s, data⟩
    cases data <;> rfl
  rw [← hlast v, h, hlast w]

lemma toLex_mk_lt {α β : Type} [Preorder α] [LT β] {a : α} {b c : β} :
    (toLex (a, b) : α ×ₗ β) < toLex (a, c) ↔ b < c := by
  rw [Prod.Lex.toLex_lt_toLex, or_iff_right (lt_irrefl _), and_iff_right rfl]

lemma lex_lt_iff {a b : ℕ} {x y : Hash} : (toLex (a, x) : ℕ ×ₗ Hash) < toLex (b, y) ↔
      (if b < a then false else if b > a then true else decide (x < y)) = true := by
  rw [Prod.Lex.toLex_lt_toLex]
  rcases lt_trichotomy a b with hlt | rfl | hgt
  · rw [if_neg hlt.not_gt, if_pos hlt]
    exact iff_of_true (.inl hlt) rfl
  · rw [if_neg (lt_irrefl a), if_neg (lt_irrefl a), decide_eq_true_eq]
    exact ⟨fun h ↦ h.elim (fun h ↦ absurd h (lt_irrefl a)) fun h ↦ h.2, fun h ↦ .inr ⟨rfl, h⟩⟩
  rw [if_pos hgt]
  refine iff_of_false ?_ Bool.false_ne_true
  rintro (h | h)
  · exact absurd h hgt.not_gt
  · exact absurd h.1 hgt.ne'

variable {a : NodeInstance}

lemma rank_of_nodeInstance (h : v.data = .nodeInstance a) :
    rank hash v = toLex (a.timestamp, toLex (a.token, toLex (v.wallclock, hash v))) := by
  rw [rank, h]

lemma rank_of_ne (h : ∀ a, v.data ≠ .nodeInstance a) :
    rank hash v = toLex (0, toLex (0, toLex (v.wallclock, hash v))) := by
  rw [rank]
  split
  · rename_i a ha
    exact absurd ha (h a)
  · rfl

lemma nodeInstance_of_label {key : Pubkey} (h : v.label = .nodeInstance key) :
    ∃ a, v.data = .nodeInstance a ∧ a.fromKey = key := by
  obtain ⟨s, data⟩ := v
  cases data with
  | nodeInstance a => exact ⟨a, rfl, CrdsValueLabel.nodeInstance.inj h⟩
  | _ => cases h

lemma label_of_nodeInstance (h : v.data = .nodeInstance a) :
    v.label = .nodeInstance a.fromKey := by
  rw [CrdsValue.label, h]

/-- A value overrides another one if its rank is greater. -/
theorem beats_iff (hlabel : v.label = w.label)
    (hc : ∀ a b, v.data = .nodeInstance a → w.data = .nodeInstance b → a.fromKey = b.fromKey →
      a.token = b.token → a.timestamp = b.timestamp) :
    beats hash v w = true ↔ rank hash w < rank hash v := by
  by_cases hnode : ∃ a, v.data = .nodeInstance a
  · obtain ⟨a, ha⟩ := hnode
    obtain ⟨b, hb, hfrom⟩ := nodeInstance_of_label (hlabel.symm.trans (label_of_nodeInstance ha))
    have hover : overridesInstance v.data w = a.overrides w := by rw [ha]; rfl
    rw [beats, hover, rank_of_nodeInstance ha, rank_of_nodeInstance hb, NodeInstance.overrides, hb]
    show ((if a.token = b.token ∨ a.fromKey ≠ b.fromKey then none
      else if a.timestamp < b.timestamp then some false
      else if a.timestamp > b.timestamp then some true
      else some (decide (b.token < a.token))).getD _) = true ↔ _
    by_cases htoken : a.token = b.token
    · -- one token, and so one timestamp
      rw [if_pos (.inl htoken), hc a b ha hb hfrom.symm htoken, htoken, Option.getD_none,
        toLex_mk_lt, toLex_mk_lt]
      exact lex_lt_iff.symm
    rw [if_neg (not_or.mpr ⟨htoken, not_not.mpr hfrom.symm⟩), Prod.Lex.toLex_lt_toLex]
    rcases lt_trichotomy a.timestamp b.timestamp with hlt | heq | hgt
    · rw [if_pos hlt]
      exact iff_of_false Bool.false_ne_true fun h ↦
        h.elim (fun h ↦ absurd h hlt.not_gt) fun h ↦ absurd h.1 hlt.ne'
    · rw [heq, if_neg (lt_irrefl _), if_neg (lt_irrefl _), Option.getD_some, decide_eq_true_eq,
        or_iff_right (lt_irrefl _), and_iff_right rfl, Prod.Lex.toLex_lt_toLex]
      exact (or_iff_left fun h ↦ htoken h.1.symm).symm
    rw [if_neg hgt.not_gt, if_pos hgt]
    exact iff_of_true rfl (.inl hgt)
  have hv : ∀ a, v.data ≠ .nodeInstance a := fun a ha ↦ hnode ⟨a, ha⟩
  have hw : ∀ b, w.data ≠ .nodeInstance b := by
    intro b hb
    obtain ⟨a, ha, -⟩ := nodeInstance_of_label (hlabel.trans (label_of_nodeInstance hb))
    exact hv a ha
  have hnone : overridesInstance v.data w = none := by
    rw [overridesInstance]
    exact hv
  rw [beats, hnone, Option.getD_none, rank_of_ne hv, rank_of_ne hw, toLex_mk_lt,
    toLex_mk_lt]
  exact lex_lt_iff.symm

end

/-! ### Tables -/

section

variable (hash : CrdsValue → Hash)

/-- Insert values, each at its time. -/
def insertAll (values : List (CrdsValue × ℕ)) : Option Crds :=
  values.foldlM (fun crds v ↦ (crds.insert hash v.1 v.2).map fst) .default

def Crds.values (crds : Crds) : List CrdsValue := crds.table.map fun e ↦ e.2.value

/-- The value has the greatest rank of its label. -/
def Greatest (values : List CrdsValue) (v : CrdsValue) : Prop :=
  v ∈ values ∧ ∀ u ∈ values, u.label = v.label → rank hash u ≤ rank hash v

variable {hash} {values : List CrdsValue} {crds : Crds}

lemma has_iff_mem_values (h : Mirrors hash crds) :
    Mirrors.Has crds v.label v ↔ v ∈ crds.values := by
  rw [Crds.values, mem_map]
  constructor
  · rintro ⟨e, he, -, hv⟩
    exact ⟨e, he, hv⟩
  rintro ⟨e, he, rfl⟩
  exact ⟨e, he, (h.keyed e he).1, rfl⟩

lemma has_label (h : Mirrors hash crds) {l : CrdsValueLabel} (hv : Mirrors.Has crds l v) :
    v.label = l := by
  obtain ⟨e, he, rfl, rfl⟩ := hv
  exact (h.keyed e he).1.symm

lemma exists_greatest {u : CrdsValue} (hu : u ∈ values) :
    ∃ m, Greatest hash values m ∧ m.label = u.label ∧ rank hash u ≤ rank hash m := by
  obtain ⟨m, hm, hmax⟩ := Finset.exists_max_image
    (values.toFinset.filter fun v ↦ v.label = u.label) (rank hash)
    ⟨u, Finset.mem_filter.mpr ⟨mem_toFinset.mpr hu, rfl⟩⟩
  rw [Finset.mem_filter, mem_toFinset] at hm
  refine ⟨m, ⟨hm.1, fun v hv hlabel ↦ hmax v ?_⟩, hm.2, hmax u ?_⟩
  · exact Finset.mem_filter.mpr ⟨mem_toFinset.mpr hv, hlabel.trans hm.2⟩
  · exact Finset.mem_filter.mpr ⟨mem_toFinset.mpr hu, rfl⟩

/-- The values of the greatest rank stay. -/
theorem insertAll_spec (timed : List (CrdsValue × ℕ))
    (hinj : ∀ v ∈ timed.map fst, ∀ w ∈ timed.map fst, hash v = hash w → v = w)
    (hc : TokensConsistent (timed.map fst)) :
    ∃ crds, insertAll hash timed = some crds ∧ Mirrors hash crds ∧
      ∀ v, v ∈ crds.values ↔ Greatest hash (timed.map fst) v := by
  induction timed using reverseRecOn with
  | nil =>
    refine ⟨.default, rfl, mirrors_default, fun v ↦ ?_⟩
    exact iff_of_false not_mem_nil fun h ↦ not_mem_nil h.1
  | append_singleton timed last ih =>
    obtain ⟨v, now⟩ := last
    rw [map_append, map_singleton] at hinj hc ⊢
    have hsub : ∀ {w}, w ∈ timed.map fst → w ∈ timed.map fst ++ [v] := fun hw ↦ mem_append_left _ hw
    have hself : v ∈ timed.map fst ++ [v] := mem_append_right _ mem_cons_self
    obtain ⟨crds, hrun, h, hvalues⟩ := ih
      (fun w hw u hu ↦ hinj w (hsub hw) u (hsub hu)) fun w hw u hu ↦ hc w (hsub hw) u (hsub hu)
    obtain ⟨crds', result, hinsert, h', -, hhas⟩ := h.insert_spec v now
    refine ⟨crds', ?_, h', fun w ↦ ?_⟩
    · rw [insertAll, foldlM_append]
      rw [insertAll] at hrun
      rw [hrun]
      simp only [some_bind, foldlM_cons, foldlM_nil, hinsert, Option.map_some]
      rfl
    -- the value is accepted if its rank is greater than that of all others
    have haccepts : ∀ l, Mirrors.Accepts hash crds v l ↔
        l = v.label ∧ ∀ u ∈ timed.map fst, u.label = l → rank hash u < rank hash v := by
      intro l
      refine and_congr_right fun hl ↦ ?_
      subst hl
      have hbeats : ∀ u ∈ timed.map fst, u.label = v.label →
          (beats hash v u = true ↔ rank hash u < rank hash v) := fun u hu hlabel ↦
        beats_iff hlabel.symm fun a b ha hb ↦ hc v hself u (hsub hu) a b ha hb
      constructor
      · intro hall u hu hlabel
        obtain ⟨m, hm, hmlabel, hle⟩ := @exists_greatest hash _ u hu
        have hhas : Mirrors.Has crds v.label m := by
          rw [← hlabel, ← hmlabel]
          exact (has_iff_mem_values h).mpr ((hvalues m).mpr hm)
        exact lt_of_le_of_lt hle ((hbeats m hm.1 (hmlabel.trans hlabel)).mp (hall m hhas))
      intro hall u hu
      have hlabel := has_label h hu
      rw [← hlabel, has_iff_mem_values h, hvalues] at hu
      exact (hbeats u hu.1 hlabel).mpr (hall u hu.1 hlabel)
    rw [← has_iff_mem_values h', hhas, haccepts, has_iff_mem_values h, hvalues]
    constructor
    · rintro (⟨⟨hlabel, hall⟩, rfl⟩ | ⟨hnot, hmem, hmax⟩)
      · refine ⟨hself, fun u hu hl ↦ ?_⟩
        rcases mem_append.mp hu with hu | hu
        · exact (hall u hu hl).le
        · rw [mem_singleton.mp hu]
      refine ⟨hsub hmem, fun u hu hl ↦ ?_⟩
      rcases mem_append.mp hu with hu | hu
      · exact hmax u hu hl
      -- the last value is not accepted
      rw [mem_singleton.mp hu] at hl ⊢
      by_contra hgt
      refine hnot ⟨hl.symm, fun u hu hul ↦ ?_⟩
      exact lt_of_le_of_lt (hmax u hu hul) (not_le.mp hgt)
    rintro ⟨hmem, hmax⟩
    by_cases haccept : w.label = v.label ∧
        ∀ u ∈ timed.map fst, u.label = w.label → rank hash u < rank hash v
    · refine .inl ⟨haccept, ?_⟩
      rcases mem_append.mp hmem with hw | hw
      · exact absurd (hmax v hself haccept.1.symm) (not_le.mpr (haccept.2 w hw rfl))
      · exact mem_singleton.mp hw
    refine .inr ⟨haccept, ?_, fun u hu ↦ hmax u (hsub hu)⟩
    rcases mem_append.mp hmem with hw | hw
    · exact hw
    rw [mem_singleton.mp hw] at haccept hmax ⊢
    push Not at haccept
    obtain ⟨u, hu, hlabel, hle⟩ := haccept rfl
    have heq := le_antisymm (hmax u (hsub hu) hlabel) hle
    rwa [← eq_of_rank_eq (hinj u (hsub hu) v hself) heq]

/-- **Gossip tables converge.** If the instances of a node with one token have one timestamp, the
values that are left are the same for every order of insertion; a value overrides another one of its
label in a strict total order. -/
theorem tables_converge (hash : CrdsValue → Hash) (timed timed' : List (CrdsValue × ℕ))
    (hperm : (timed.map fst).Perm (timed'.map fst))
    (hinj : ∀ v ∈ timed.map fst, ∀ w ∈ timed.map fst, hash v = hash w → v = w)
    (hc : TokensConsistent (timed.map fst)) :
    (∃ crds crds', insertAll hash timed = some crds ∧ insertAll hash timed' = some crds' ∧
      ∀ v, v ∈ crds.values ↔ v ∈ crds'.values) ∧
    (∀ u ∈ timed.map fst, ∀ v ∈ timed.map fst, ∀ w ∈ timed.map fst,
      u.label = v.label → v.label = w.label →
        (u ≠ v → (beats hash u v = true ↔ ¬beats hash v u = true)) ∧
        (beats hash u v = true → beats hash v w = true → beats hash u w = true)) := by
  have hmem : ∀ {v}, v ∈ timed'.map fst ↔ v ∈ timed.map fst := fun {v} ↦
    (hperm.mem_iff (a := v)).symm
  constructor
  · obtain ⟨crds, hrun, -, hvalues⟩ := insertAll_spec timed hinj hc
    obtain ⟨crds', hrun', -, hvalues'⟩ := insertAll_spec timed'
      (fun v hv w hw ↦ hinj v (hmem.mp hv) w (hmem.mp hw))
      fun v hv w hw ↦ hc v (hmem.mp hv) w (hmem.mp hw)
    refine ⟨crds, crds', hrun, hrun', fun v ↦ ?_⟩
    rw [hvalues, hvalues', Greatest, Greatest, hmem]
    simp only [hmem]
  intro u hu v hv w hw huv hvw
  have hbeats : ∀ {a b}, a ∈ timed.map fst → b ∈ timed.map fst → a.label = b.label →
      (beats hash a b = true ↔ rank hash b < rank hash a) := fun ha hb hlabel ↦
    beats_iff hlabel fun i j hi hj ↦ hc _ ha _ hb i j hi hj
  rw [hbeats hu hv huv, hbeats hv hu huv.symm, hbeats hv hw hvw, hbeats hu hw (huv.trans hvw)]
  refine ⟨fun hne ↦ ⟨fun hlt ↦ not_lt.mpr hlt.le, fun hnot ↦ ?_⟩, fun h₁ h₂ ↦ h₂.trans h₁⟩
  exact lt_of_le_of_ne (not_lt.mp hnot) fun heq ↦ hne (eq_of_rank_eq (hinj u hu v hv) heq.symm)

/-! ### Node instances of one token -/

/-- A node instance of the default node. -/
def instanceOf (wallclock timestamp token : ℕ) : CrdsValue :=
  ⟨⟨replicate 64 0, rfl⟩, .nodeInstance ⟨default, wallclock, timestamp, token⟩⟩

def wallclockHash (v : CrdsValue) : Hash := ⟨BitVec.ofNat 256 v.wallclock⟩

/-- Two values of one instance of a node, in both orders. -/
theorem tables_converge_instances :
    ∃ crds crds', insertAll wallclockHash
      [(instanceOf 1 1 7, 0), (instanceOf 2 1 7, 0)] = some crds ∧
      insertAll wallclockHash [(instanceOf 2 1 7, 0), (instanceOf 1 1 7, 0)] = some crds' ∧
      ∀ v, v ∈ crds.values ↔ v ∈ crds'.values :=
  (tables_converge wallclockHash [(instanceOf 1 1 7, 0), (instanceOf 2 1 7, 0)]
    [(instanceOf 2 1 7, 0), (instanceOf 1 1 7, 0)] (Perm.swap ..) (by decide +kernel) (by
      intro v hv w hw a b ha hb _ _
      have hts : ∀ v ∈ [instanceOf 1 1 7, instanceOf 2 1 7], ∀ a, v.data = .nodeInstance a →
          a.timestamp = 1 := by
        intro v hv a ha
        simp only [mem_cons, not_mem_nil, or_false] at hv
        rcases hv with rfl | rfl <;> exact CrdsData.nodeInstance.inj ha ▸ rfl
      rw [hts v hv a ha, hts w hw b hb])).1

/-- Of three instances, each one overrides the next: the first two share a token but not the
timestamp. What is left depends on the order. -/
theorem overrides_in_circle :
    (insertAll wallclockHash [(instanceOf 5 10 1, 0), (instanceOf 6 5 1, 0),
      (instanceOf 7 7 2, 0)]).map
        Crds.values = some [instanceOf 7 7 2] ∧
      (insertAll wallclockHash
        [(instanceOf 6 5 1, 0), (instanceOf 7 7 2, 0), (instanceOf 5 10 1, 0)]).map
        Crds.values = some [instanceOf 5 10 1] ∧
      (∀ v ∈ [instanceOf 5 10 1, instanceOf 6 5 1, instanceOf 7 7 2],
        ∀ w ∈ [instanceOf 5 10 1, instanceOf 6 5 1, instanceOf 7 7 2],
          wallclockHash v = wallclockHash w → v = w) := by
  refine ⟨by decide +kernel, by decide +kernel, by decide +kernel⟩

end

end Renec.Gossip
