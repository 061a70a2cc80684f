import Mathlib

/-!
# Codecs

A codec writes a value as a list of symbols and reads a value from the front of such a list,
returning the symbols behind it. Both can fail. The laws are two predicates:

* `Codec.RoundTrips`: what was written is read back, whatever follows it;
* `Codec.Canonical`: what is read is exactly what would be written, so no value has a second
  encoding.

A codec with both is `Codec.Exact`.
-/

open Except List

/-- A writer and a reader of one type, over the symbols `σ` and with the errors `ε`. -/
structure Codec (σ ε α : Type) where
  encode : α → Except ε (List σ)
  /-- The value at the front, and what stands behind it. -/
  decode : List σ → Except ε (α × List σ)

namespace Codec

variable {σ ε α β : Type}

lemma bind_eq_ok {x : Except ε α} {f : α → Except ε β} {b : β} :
    (x >>= f) = .ok b ↔ ∃ a, x = .ok a ∧ f a = .ok b := by
  cases x with
  | error e => exact ⟨nofun, fun ⟨_, h, _⟩ ↦ (by cases h)⟩
  | ok a => exact ⟨fun h ↦ ⟨a, rfl, h⟩, fun ⟨_, ha, h⟩ ↦ (by cases ha; exact h)⟩

/-! ### Laws -/

/-- What was written is read back. -/
def RoundTrips (c : Codec σ ε α) : Prop :=
  ∀ ⦃a taken⦄ (rest : List σ), c.encode a = .ok taken → c.decode (taken ++ rest) = .ok (a, rest)

/-- What is read is what would be written. -/
def Canonical (c : Codec σ ε α) : Prop := ∀ ⦃input a rest⦄, c.decode input = .ok (a, rest) →
    ∃ taken, c.encode a = .ok taken ∧ input = taken ++ rest

/-- Both laws. -/
structure Exact (c : Codec σ ε α) : Prop where
  roundTrips : c.RoundTrips
  canonical : c.Canonical

variable {c : Codec σ ε α} {d : Codec σ ε β}

/-! ### Combinators -/

variable (eof : ε)

/-- One symbol; `eof` is the error at the end of the input. -/
def symbol : Codec σ ε σ where
  encode s := .ok [s]
  decode
    | [] => .error eof
    | s :: rest => .ok (s, rest)

lemma symbol_exact : (symbol eof : Codec σ ε σ).Exact where
  roundTrips s taken rest h := by
    obtain rfl := ok.inj h
    rfl
  canonical input s rest h := by
    cases input with
    | nil => cases h
    | cons a input =>
      obtain ⟨rfl, rfl⟩ := Prod.mk.inj (ok.inj h)
      exact ⟨[a], rfl, rfl⟩

/-- `n` symbols. -/
def block (n : ℕ) : Codec σ ε { l : List σ // l.length = n } where
  encode l := .ok l.1
  decode input :=
    if h : n ≤ input.length then .ok (⟨input.take n, length_take_of_le h⟩, input.drop n)
    else .error eof

lemma block_exact (n : ℕ) : (block eof n : Codec σ ε _).Exact where
  roundTrips l taken rest h := by
    cases h
    have hle : n ≤ (l.1 ++ rest).length := by
      rw [length_append, l.2]
      exact Nat.le_add_right n _
    have htake : (l.1 ++ rest).take n = l.1 := take_left' l.2
    have hdrop : (l.1 ++ rest).drop n = rest := drop_left' l.2
    rw [block]
    dsimp only
    rw [dif_pos hle, ok.injEq, Prod.mk.injEq]
    exact ⟨Subtype.ext htake, hdrop⟩
  canonical input l rest h := by
    rw [block] at h
    dsimp only at h
    split_ifs at h
    cases h
    exact ⟨_, rfl, (take_append_drop n input).symm⟩

/-- Two values, one behind the other. -/
def pair (c : Codec σ ε α) (d : Codec σ ε β) : Codec σ ε (α × β) where
  encode p := do
    let first ← c.encode p.1
    let second ← d.encode p.2
    return first ++ second
  decode input := do
    let (a, rest) ← c.decode input
    let (b, rest) ← d.decode rest
    return ((a, b), rest)

variable {taken : List σ} {input rest : List σ} {l : List α}

lemma append_eq_ok {x y : Except ε (List σ)} :
    (do
      let first ← x
      let others ← y
      return first ++ others) = .ok taken ↔
      ∃ first others, x = .ok first ∧ y = .ok others ∧ taken = first ++ others := by
  simp only [bind_eq_ok, pure, Except.pure, ok.injEq]
  constructor
  · rintro ⟨first, hfirst, others, hothers, rfl⟩
    exact ⟨first, others, hfirst, hothers, rfl⟩
  rintro ⟨first, others, hfirst, hothers, rfl⟩
  exact ⟨first, hfirst, others, hothers, rfl⟩

lemma pair_encode_eq_ok {p : α × β} : (pair c d).encode p = .ok taken ↔
      ∃ first second, c.encode p.1 = .ok first ∧ d.encode p.2 = .ok second ∧
        taken = first ++ second :=
  append_eq_ok

lemma pair_decode_eq_ok {p : α × β} : (pair c d).decode input = .ok (p, rest) ↔
      ∃ middle, c.decode input = .ok (p.1, middle) ∧ d.decode middle = .ok (p.2, rest) := by
  simp only [pair, bind_eq_ok, pure, Except.pure, ok.injEq, Prod.mk.injEq]
  constructor
  · rintro ⟨⟨a, middle⟩, ha, ⟨b, rest'⟩, hb, rfl, rfl⟩
    exact ⟨middle, ha, hb⟩
  rintro ⟨middle, ha, hb⟩
  exact ⟨_, ha, _, hb, rfl, rfl⟩

lemma RoundTrips.pair (hc : c.RoundTrips) (hd : d.RoundTrips) : (c.pair d).RoundTrips := by
  intro p taken rest h
  obtain ⟨first, second, hfirst, hsecond, rfl⟩ := pair_encode_eq_ok.mp h
  rw [append_assoc]
  exact pair_decode_eq_ok.mpr ⟨second ++ rest, hc _ hfirst, hd _ hsecond⟩

lemma Canonical.pair (hc : c.Canonical) (hd : d.Canonical) : (c.pair d).Canonical := by
  intro input p rest h
  obtain ⟨middle, ha, hb⟩ := pair_decode_eq_ok.mp h
  obtain ⟨first, hfirst, rfl⟩ := hc ha
  obtain ⟨second, hsecond, rfl⟩ := hd hb
  exact ⟨first ++ second, pair_encode_eq_ok.mpr ⟨first, second, hfirst, hsecond, rfl⟩,
    (append_assoc ..).symm⟩

lemma Exact.pair (hc : c.Exact) (hd : d.Exact) : (c.pair d).Exact :=
  ⟨hc.roundTrips.pair hd.roundTrips, hc.canonical.pair hd.canonical⟩

/-- The same encoding for another type. -/
def map (c : Codec σ ε α) (e : α ≃ β) : Codec σ ε β where
  encode b := c.encode (e.symm b)
  decode input := do
    let (a, rest) ← c.decode input
    return (e a, rest)

lemma map_decode_eq_ok {e : α ≃ β} {b : β} :
    (c.map e).decode input = .ok (b, rest) ↔ c.decode input = .ok (e.symm b, rest) := by
  simp only [map, bind_eq_ok, pure, Except.pure, ok.injEq, Prod.mk.injEq]
  constructor
  · rintro ⟨⟨a, rest'⟩, ha, rfl, rfl⟩
    rw [e.symm_apply_apply]
    exact ha
  · exact fun h ↦ ⟨_, h, e.apply_symm_apply b, rfl⟩

lemma RoundTrips.map (h : c.RoundTrips) (e : α ≃ β) : (c.map e).RoundTrips :=
  fun _ _ rest hencode ↦ map_decode_eq_ok.mpr (h rest hencode)

lemma Canonical.map (h : c.Canonical) (e : α ≃ β) : (c.map e).Canonical :=
  fun _ _ _ hdecode ↦ h (map_decode_eq_ok.mp hdecode)

lemma Exact.map (h : c.Exact) (e : α ≃ β) : (c.map e).Exact :=
  ⟨h.roundTrips.map e, h.canonical.map e⟩

/-! ### Repetition -/

/-- The values of a list, one behind the other. -/
def encodeAll (c : Codec σ ε α) : List α → Except ε (List σ)
  | [] => .ok []
  | a :: l => do
    let first ← c.encode a
    let others ← c.encodeAll l
    return first ++ others

/-- `n` values. -/
def decodeMany (c : Codec σ ε α) : ℕ → List σ → Except ε (List α × List σ)
  | 0, input => .ok ([], input)
  | n + 1, input => do
    let (a, rest) ← c.decode input
    let (l, rest) ← c.decodeMany n rest
    return (a :: l, rest)

lemma encodeAll_cons_eq_ok {a : α} : c.encodeAll (a :: l) = .ok taken ↔
      ∃ first others, c.encode a = .ok first ∧ c.encodeAll l = .ok others ∧
        taken = first ++ others :=
  append_eq_ok

lemma decodeMany_succ_eq_ok {n : ℕ} : c.decodeMany (n + 1) input = .ok (l, rest) ↔
      ∃ a l' middle, c.decode input = .ok (a, middle) ∧
        c.decodeMany n middle = .ok (l', rest) ∧ l = a :: l' := by
  simp only [decodeMany, bind_eq_ok, pure, Except.pure, ok.injEq, Prod.mk.injEq]
  constructor
  · rintro ⟨⟨a, middle⟩, ha, ⟨l', rest'⟩, hl, rfl, rfl⟩
    exact ⟨a, l', middle, ha, hl, rfl⟩
  rintro ⟨a, l', middle, ha, hl, rfl⟩
  exact ⟨_, ha, _, hl, rfl, rfl⟩

lemma exists_encodeAll (h : ∀ a ∈ l, ∃ taken, c.encode a = .ok taken) :
    ∃ taken, c.encodeAll l = .ok taken := by
  induction l with
  | nil => exact ⟨[], rfl⟩
  | cons a l ih =>
    obtain ⟨first, hfirst⟩ := h a mem_cons_self
    obtain ⟨others, hothers⟩ := ih fun b hb ↦ h b (mem_cons_of_mem a hb)
    exact ⟨first ++ others, encodeAll_cons_eq_ok.mpr ⟨first, others, hfirst, hothers, rfl⟩⟩

lemma encodeAll_eq_flatMap {e : α → List σ} (h : ∀ a, c.encode a = .ok (e a)) (l : List α) :
    c.encodeAll l = .ok (l.flatMap e) := by
  induction l with
  | nil => rfl
  | cons a l ih => exact encodeAll_cons_eq_ok.mpr ⟨e a, l.flatMap e, h a, ih, rfl⟩

lemma RoundTrips.decodeMany (h : c.RoundTrips) (hencode : c.encodeAll l = .ok taken)
    (rest : List σ) : c.decodeMany l.length (taken ++ rest) = .ok (l, rest) := by
  induction l generalizing taken with
  | nil =>
    cases hencode
    rfl
  | cons a l ih =>
    obtain ⟨first, others, hfirst, hothers, rfl⟩ := encodeAll_cons_eq_ok.mp hencode
    rw [append_assoc, length_cons]
    exact decodeMany_succ_eq_ok.mpr ⟨a, l, others ++ rest, h _ hfirst, ih hothers, rfl⟩

lemma Canonical.encodeAll (h : c.Canonical) {n : ℕ}
    (hdecode : c.decodeMany n input = .ok (l, rest)) :
    l.length = n ∧ ∃ taken, c.encodeAll l = .ok taken ∧ input = taken ++ rest := by
  induction n generalizing input l with
  | zero =>
    cases hdecode
    exact ⟨rfl, [], rfl, rfl⟩
  | succ n ih =>
    obtain ⟨a, l', middle, ha, hl, rfl⟩ := decodeMany_succ_eq_ok.mp hdecode
    obtain ⟨first, hfirst, rfl⟩ := h ha
    obtain ⟨hlength, others, hothers, rfl⟩ := ih hl
    exact ⟨by rw [length_cons, hlength], first ++ others,
      encodeAll_cons_eq_ok.mpr ⟨first, others, hfirst, hothers, rfl⟩, (append_assoc ..).symm⟩

/-- The length of a list, then its values. -/
def counted (len : Codec σ ε ℕ) (c : Codec σ ε α) : Codec σ ε (List α) where
  encode l := do
    let first ← len.encode l.length
    let others ← c.encodeAll l
    return first ++ others
  decode input := do
    let (n, rest) ← len.decode input
    c.decodeMany n rest

variable {len : Codec σ ε ℕ}

lemma counted_encode_eq_ok : (counted len c).encode l = .ok taken ↔
      ∃ first others, len.encode l.length = .ok first ∧ c.encodeAll l = .ok others ∧
        taken = first ++ others :=
  append_eq_ok

lemma counted_decode_eq_ok : (counted len c).decode input = .ok (l, rest) ↔
      ∃ n middle, len.decode input = .ok (n, middle) ∧ c.decodeMany n middle = .ok (l, rest) := by
  simp only [counted, bind_eq_ok]
  constructor
  · rintro ⟨⟨n, middle⟩, hlen, hl⟩
    exact ⟨n, middle, hlen, hl⟩
  rintro ⟨n, middle, hlen, hl⟩
  exact ⟨_, hlen, hl⟩

lemma RoundTrips.counted (hlen : len.RoundTrips) (h : c.RoundTrips) :
    (counted len c).RoundTrips := by
  intro l taken rest hencode
  obtain ⟨first, others, hfirst, hothers, rfl⟩ := counted_encode_eq_ok.mp hencode
  rw [append_assoc]
  exact counted_decode_eq_ok.mpr
    ⟨l.length, others ++ rest, hlen _ hfirst, h.decodeMany hothers rest⟩

lemma Canonical.counted (hlen : len.Canonical) (h : c.Canonical) : (counted len c).Canonical := by
  intro input l rest hdecode
  obtain ⟨n, middle, hn, hl⟩ := counted_decode_eq_ok.mp hdecode
  obtain ⟨first, hfirst, rfl⟩ := hlen hn
  obtain ⟨rfl, others, hothers, rfl⟩ := h.encodeAll hl
  exact ⟨first ++ others, counted_encode_eq_ok.mpr ⟨first, others, hfirst, hothers, rfl⟩,
    (append_assoc ..).symm⟩

lemma Exact.counted (hlen : len.Exact) (h : c.Exact) : (Codec.counted len c).Exact :=
  ⟨hlen.roundTrips.counted h.roundTrips, hlen.canonical.counted h.canonical⟩

end Codec
