import Renec.Machine.Codec
import Renec.Machine.Outcome

/-!
# Vectors with a short length

The length of a vector in a message or a transaction is a `ShortU16` (`sdk/program/src/short_vec`):
one to three bytes with seven bits each, the least significant first, and the top bit set in all but
the last.
-/

namespace Renec

open Nat List Codec Except
open UInt8 hiding mul_one

/-! ### Errors -/

/-- `de::Unexpected`: what was met in the input. -/
inductive Unexpected where
  | unsigned (value : ℕ)
  | other (description : String)
  deriving DecidableEq

/-- The errors of a serializer and of a deserializer. -/
inductive SerdeError where
  /-- The reader is at the end of its input. -/
  | unexpectedEof
  | invalidLength (len : ℕ) (expected : String)
  | invalidValue (unexpected : Unexpected) (expected : String)
  | custom (message : String)
  deriving DecidableEq

namespace ShortU16

inductive VisitStatus where
  | done (val : ℕ)
  | more (val : ℕ)
  deriving DecidableEq

inductive VisitError where
  | tooLong (len : ℕ)
  | tooShort (len : ℕ)
  | overflow (val : ℕ)
  | aliased
  | byteThreeContinues
  deriving DecidableEq

def VisitError.intoDeError : VisitError → SerdeError
  | tooLong len => .invalidLength len "three or fewer bytes"
  | tooShort len => .invalidLength len "more bytes"
  | overflow val => .invalidValue (.unsigned val) "a value in the range [0, 65535]"
  | aliased => .invalidValue (.other "alias encoding") "strict form encoding"
  | byteThreeContinues => .invalidValue (.other "continue signal on byte-three")
      "a terminal signal on or before byte-three"

/-! ### The encoding -/

/-- `ShortU16::serialize`. -/
def serialize (remVal : ℕ) : List UInt8 :=
  let elem := ofNat (remVal &&& 0x7f)
  if remVal >>> 7 = 0 then [elem] else (elem ||| 0x80) :: serialize (remVal >>> 7)
termination_by remVal
decreasing_by
  rename_i h
  rw [shiftRight_eq_div_pow] at h ⊢
  exact div_lt_self (Nat.pos_of_ne_zero fun hzero ↦ h (by rw [hzero, Nat.zero_div])) (by norm_num)

/-- `MAX_ENCODING_LENGTH`. -/
def maxEncodingLength : ℕ := 3

/-- `x.checked_shl(shift).unwrap_or(u32::MAX)`. -/
def shlOrMax (x shift : ℕ) : ℕ := if shift < 32 then x <<< shift % 2 ^ 32 else 2 ^ 32 - 1

/-- `visit_byte`: one more byte of a value. -/
def visitByte (elem : UInt8) (val nthByte : ℕ) : Except VisitError VisitStatus :=
  if elem = 0 ∧ nthByte ≠ 0 then .error .aliased
  else
    let elemVal := elem.toNat &&& 0x7f
    let elemDone := elem.toNat &&& 0x80 == 0
    if nthByte ≥ maxEncodingLength then .error (.tooLong (saturatingAdd 64 nthByte 1))
    else if nthByte = maxEncodingLength - 1 ∧ !elemDone then .error .byteThreeContinues
    else
      let shift := min (min nthByte (2 ^ 32 - 1) * 7) (2 ^ 32 - 1)
      let newVal := val ||| shlOrMax elemVal shift
      if newVal > 2 ^ 16 - 1 then .error (.overflow newVal)
      else if elemDone then .ok (.done newVal) else .ok (.more newVal)

section

variable (atEnd : Option SerdeError)

/-- `SeqAccess::next_element` over bytes. At the end of its input a reader answers that there is no
element, or with an error. -/
def nextElement : List UInt8 → Except SerdeError (Option UInt8 × List UInt8)
  | [] => atEnd.elim (.ok (none, [])) .error
  | byte :: rest => .ok (some byte, rest)

/-- The loop of `ShortU16Visitor::visit_seq` with `n` iterations left. -/
def visitFrom (val nthByte : ℕ) : ℕ → List UInt8 → Except SerdeError (ℕ × List UInt8)
  | 0, _ => .error VisitError.byteThreeContinues.intoDeError
  | n + 1, bytes => do
    match ← nextElement atEnd bytes with
    | (none, _) => .error (VisitError.tooShort (saturatingAdd 64 nthByte 1)).intoDeError
    | (some elem, rest) =>
      match visitByte elem val nthByte with
      | .error e => .error e.intoDeError
      | .ok (.done newVal) => .ok (newVal, rest)
      | .ok (.more newVal) => visitFrom newVal (nthByte + 1) n rest

/-- `ShortU16Visitor::visit_seq`. -/
def visitSeq (bytes : List UInt8) : Except SerdeError (ℕ × List UInt8) :=
  visitFrom atEnd 0 0 maxEncodingLength bytes

end

/-- The loop of `decode_shortu16_len`. -/
def decodeFrom (val nthByte : ℕ) : List UInt8 → Except Unit (ℕ × ℕ)
  | [] => .error ()
  | byte :: rest =>
    match visitByte byte val nthByte with
    | .error _ => .error ()
    | .ok (.more newVal) => decodeFrom newVal (nthByte + 1) rest
    | .ok (.done newVal) => .ok (newVal, saturatingAdd 64 nthByte 1)

/-- `decode_shortu16_len`: the value and how many bytes it took. -/
def decodeShortu16Len (bytes : List UInt8) : Except Unit (ℕ × ℕ) :=
  decodeFrom 0 0 (bytes.take maxEncodingLength)

/-! ### One byte -/

variable {x : ℕ}

lemma serialize_of_lt (h : x < 128) : serialize x = [ofNat x] := by
  have hshift : x >>> 7 = 0 := by
    rw [shiftRight_eq_div_pow]
    exact div_eq_of_lt h
  rw [serialize, if_pos hshift, and_two_pow_sub_one_eq_mod x 7, mod_eq_of_lt h]

lemma or_continue : ∀ n < 128, ofNat n ||| 0x80 = ofNat (n + 128) := by
  decide +kernel

lemma serialize_of_le (h : 128 ≤ x) :
    serialize x = ofNat (x % 128 + 128) :: serialize (x / 128) := by
  have hshift : x >>> 7 = x / 128 := shiftRight_eq_div_pow x 7
  rw [serialize, hshift, if_neg (by omega), and_two_pow_sub_one_eq_mod x 7]
  rw [or_continue _ (mod_lt x (by norm_num))]

lemma toNat_ofNat_byte (h : x < 256) : (ofNat x).toNat = x := toNat_ofNat_of_lt' h

lemma and_continue : ∀ n < 256, (n &&& 0x80 = 0) ↔ n < 128 := by
  decide +kernel

lemma toNat_and_continue (elem : UInt8) : (elem.toNat &&& 0x80 = 0) ↔ elem.toNat < 128 :=
  and_continue _ elem.toNat_lt

variable {n val : ℕ}

lemma or_shlOrMax (hval : val < 128 ^ n) (hx : x < 128) (hn : n < 3) :
    val ||| shlOrMax x (min (min n (2 ^ 32 - 1) * 7) (2 ^ 32 - 1)) = val + x * 128 ^ n := by
  have hshift : min (min n (2 ^ 32 - 1) * 7) (2 ^ 32 - 1) = 7 * n := by omega
  have hpow : (128 : ℕ) ^ n = 2 ^ (7 * n) := (pow_mul 2 7 n).symm
  have hlt : x * 2 ^ (7 * n) < 2 ^ 32 := by
    calc x * 2 ^ (7 * n) < 2 ^ 7 * 2 ^ (7 * n) := Nat.mul_lt_mul_of_pos_right hx (Nat.two_pow_pos _)
      _ = 2 ^ (7 + 7 * n) := (pow_add ..).symm
      _ ≤ 2 ^ 32 := Nat.pow_le_pow_right (by norm_num) (by omega)
  rw [hpow] at hval
  rw [hshift, shlOrMax, if_pos (by omega), shiftLeft_eq, mod_eq_of_lt hlt, hpow,
    Nat.or_comm, Nat.mul_comm x, ← two_pow_add_eq_or_of_lt hval, Nat.add_comm]

variable {elem : UInt8}

/-- The step for one byte, below the third: what makes it end, go on or fail. -/
theorem visitByte_eq_ok {status : VisitStatus} (hval : val < 128 ^ n) (hn : n < 3) :
    visitByte elem val n = .ok status ↔
      (n ≠ 0 → elem ≠ 0) ∧ val + elem.toNat % 128 * 128 ^ n < 2 ^ 16 ∧
        (elem.toNat < 128 ∧ status = .done (val + elem.toNat % 128 * 128 ^ n) ∨
          128 ≤ elem.toNat ∧ n ≠ 2 ∧ status = .more (val + elem.toNat % 128 * 128 ^ n)) := by
  have hmod : elem.toNat &&& 0x7f = elem.toNat % 128 := and_two_pow_sub_one_eq_mod _ 7
  have hor := or_shlOrMax hval (mod_lt elem.toNat (show 0 < 128 by norm_num)) hn
  have hmax : maxEncodingLength - 1 = 2 := rfl
  by_cases halias : elem = 0 ∧ n ≠ 0
  · rw [visitByte, if_pos halias]
    exact ⟨nofun, fun ⟨h, _⟩ ↦ absurd halias.1 (h halias.2)⟩
  have hzero : n ≠ 0 → elem ≠ 0 := fun hne heq ↦ halias ⟨heq, hne⟩
  rw [visitByte, if_neg halias]
  dsimp only
  rw [if_neg (show ¬ n ≥ maxEncodingLength from Nat.not_le_of_lt hn), hmod, hor, hmax]
  rcases Nat.lt_or_ge elem.toNat 128 with hlt | hge
  · have hdone : (elem.toNat &&& 0x80 == 0) = true :=
      beq_iff_eq.mpr ((toNat_and_continue _).mpr hlt)
    rw [hdone, if_neg (by simp), if_pos rfl]
    split_ifs with hover
    · exact ⟨nofun, fun h ↦ by omega⟩
    rw [ok.injEq]
    constructor
    · rintro rfl
      exact ⟨hzero, by omega, .inl ⟨hlt, rfl⟩⟩
    rintro ⟨-, -, ⟨-, rfl⟩ | ⟨hge, -⟩⟩
    · rfl
    · omega
  have hdone : (elem.toNat &&& 0x80 == 0) = false := by
    rw [beq_eq_false_iff_ne]
    exact fun h ↦ absurd ((toNat_and_continue _).mp h) (by omega)
  rw [hdone]
  by_cases hthird : n = 2
  · rw [if_pos ⟨hthird, rfl⟩]
    exact ⟨nofun, fun ⟨_, _, h⟩ ↦ by omega⟩
  rw [if_neg (fun h ↦ hthird h.1), if_neg Bool.false_ne_true]
  split_ifs with hover
  · exact ⟨nofun, fun h ↦ by omega⟩
  rw [ok.injEq]
  constructor
  · rintro rfl
    exact ⟨hzero, by omega, .inr ⟨hge, hthird, rfl⟩⟩
  rintro ⟨-, -, ⟨hlt, -⟩ | ⟨-, -, rfl⟩⟩
  · omega
  · rfl

/-! ### The visitor -/

variable {atEnd : Option SerdeError} {bytes rest : List UInt8} {v : ℕ}

lemma visitFrom_cons_eq_ok {k : ℕ} :
    visitFrom atEnd val n (k + 1) (elem :: bytes) = .ok (v, rest) ↔
      (visitByte elem val n = .ok (.done v) ∧ bytes = rest) ∨
        ∃ newVal, visitByte elem val n = .ok (.more newVal) ∧
          visitFrom atEnd newVal (n + 1) k bytes = .ok (v, rest) := by
  have hstep : visitFrom atEnd val n (k + 1) (elem :: bytes) =
      match visitByte elem val n with
      | .error e => .error e.intoDeError
      | .ok (.done newVal) => .ok (newVal, bytes)
      | .ok (.more newVal) => visitFrom atEnd newVal (n + 1) k bytes := rfl
  rw [hstep]
  rcases visitByte elem val n with e | (w | w) <;> simp

lemma visitFrom_eq_ok {k : ℕ} (hn : n + k = 3) (hval : val < 128 ^ n) :
    visitFrom atEnd val n k bytes = .ok (v, rest) ↔
      ∃ x, bytes = serialize x ++ rest ∧ v = val + x * 128 ^ n ∧ v < 2 ^ 16 ∧ (n ≠ 0 → x ≠ 0) := by
  -- induction on the iterations left; the bits that were read are `val`
  induction k generalizing n val bytes with
  | zero =>
    obtain rfl : n = 3 := by omega
    refine ⟨nofun, ?_⟩
    rintro ⟨x, -, rfl, hlt, hx⟩
    have := Nat.pos_of_ne_zero (hx (by norm_num))
    omega
  | succ k ih =>
    have hlt3 : n < 3 := by omega
    cases bytes with
    | nil =>
      constructor
      · intro h
        cases atEnd <;> cases h
      rintro ⟨x, hnil, -⟩
      rcases Nat.lt_or_ge x 128 with hx | hx
      · rw [serialize_of_lt hx] at hnil
        cases hnil
      rw [serialize_of_le hx] at hnil
      cases hnil
    | cons elem bytes =>
      have hmod := mod_lt elem.toNat (show 0 < 128 by norm_num)
      have hval' : val + elem.toNat % 128 * 128 ^ n < 128 ^ (n + 1) := by
        calc val + elem.toNat % 128 * 128 ^ n
            < 128 ^ n + elem.toNat % 128 * 128 ^ n := Nat.add_lt_add_right hval _
          _ = (elem.toNat % 128 + 1) * 128 ^ n := by ring
          _ ≤ 128 * 128 ^ n := mul_le_mul_right _ hmod
          _ = 128 ^ (n + 1) := (pow_succ' ..).symm
      rw [visitFrom_cons_eq_ok]
      constructor
      · rintro (⟨hdone, rfl⟩ | ⟨newVal, hmore, hloop⟩)
        · obtain ⟨hzero, hlt, ⟨helem, heq⟩ | ⟨-, -, heq⟩⟩ := (visitByte_eq_ok hval hlt3).mp hdone
          · rw [mod_eq_of_lt helem] at heq hlt
            obtain rfl := VisitStatus.done.inj heq
            refine ⟨elem.toNat, ?_, rfl, hlt, fun hne h ↦ hzero hne (UInt8.toNat_inj.mp h)⟩
            rw [serialize_of_lt helem, UInt8.ofNat_toNat, singleton_append]
          · cases heq
        obtain ⟨-, -, ⟨-, heq⟩ | ⟨helem, -, heq⟩⟩ := (visitByte_eq_ok hval hlt3).mp hmore
        · cases heq
        obtain rfl := VisitStatus.more.inj heq
        obtain ⟨x, rfl, rfl, hlt, hx⟩ := (ih (by omega) hval').mp hloop
        have hpos := Nat.pos_of_ne_zero (hx n.succ_ne_zero)
        have hbyte := elem.toNat_lt
        have hlow : (elem.toNat % 128 + 128 * x) % 128 + 128 = elem.toNat := by omega
        have hhigh : (elem.toNat % 128 + 128 * x) / 128 = x := by omega
        have hle : 128 ≤ elem.toNat % 128 + 128 * x := by omega
        refine ⟨elem.toNat % 128 + 128 * x, ?_, by rw [pow_succ']; ring, hlt, fun _ ↦ by omega⟩
        rw [serialize_of_le hle, hlow, hhigh, UInt8.ofNat_toNat, cons_append]
      rintro ⟨x, hbytes, rfl, hlt, hx⟩
      rcases Nat.lt_or_ge x 128 with hsmall | hlarge
      · rw [serialize_of_lt hsmall, singleton_append] at hbytes
        obtain ⟨rfl, rfl⟩ := cons.inj hbytes
        have hnat : (ofNat x).toNat = x := toNat_ofNat_byte (by omega)
        refine .inl ⟨(visitByte_eq_ok hval hlt3).mpr ?_, rfl⟩
        rw [hnat, mod_eq_of_lt hsmall]
        refine ⟨fun hne heq ↦ hx hne ?_, hlt, .inl ⟨hsmall, rfl⟩⟩
        rw [← hnat, heq]
        rfl
      rw [serialize_of_le hlarge, cons_append] at hbytes
      obtain ⟨rfl, rfl⟩ := cons.inj hbytes
      have hnat : (ofNat (x % 128 + 128)).toNat = x % 128 + 128 := toNat_ofNat_byte (by omega)
      have hlow : (x % 128 + 128) % 128 = x % 128 := by omega
      have hsum : val + x * 128 ^ n = val + x % 128 * 128 ^ n + x / 128 * 128 ^ (n + 1) := by
        conv_lhs => rw [← mod_add_div x 128]
        rw [pow_succ']
        ring
      rw [hnat, hlow] at hval'
      refine .inr ⟨val + x % 128 * 128 ^ n, (visitByte_eq_ok hval hlt3).mpr ?_, ?_⟩
      · rw [hnat, hlow]
        refine ⟨fun _ heq ↦ ?_, by omega, .inr ⟨by omega, fun htwo ↦ ?_, rfl⟩⟩
        · rw [heq] at hnat
          have : (0 : UInt8).toNat = 0 := rfl
          omega
        subst htwo
        omega
      refine (ih (by omega) hval').mpr ⟨x / 128, rfl, hsum, hlt, fun _ ↦ ?_⟩
      omega

/-- The visitor accepts exactly the encodings, whatever follows them. -/
theorem visitSeq_eq_ok :
    visitSeq atEnd bytes = .ok (v, rest) ↔ v < 2 ^ 16 ∧ bytes = serialize v ++ rest := by
  rw [visitSeq, visitFrom_eq_ok rfl (by norm_num)]
  constructor
  · rintro ⟨x, rfl, rfl, hlt, -⟩
    rw [pow_zero, mul_one, zero_add] at *
    exact ⟨hlt, rfl⟩
  rintro ⟨hlt, rfl⟩
  exact ⟨v, rfl, by rw [pow_zero, mul_one, zero_add], hlt, fun h ↦ absurd rfl h⟩

/-! ### The second decoder -/

/-- The two loops agree: they share the step, and count what they have read. -/
theorem decodeFrom_eq_ok {k m : ℕ} {bytes : List UInt8} (hn : n + k = 3) :
    decodeFrom val n (bytes.take k) = .ok (v, m) ↔
      ∃ rest, visitFrom atEnd val n k bytes = .ok (v, rest) ∧
        n + bytes.length = m + rest.length := by
  induction k generalizing n val bytes with
  | zero =>
    rw [take_zero]
    exact ⟨nofun, fun ⟨_, h, _⟩ ↦ (by cases h)⟩
  | succ k ih =>
    cases bytes with
    | nil =>
      refine ⟨nofun, fun ⟨_, h, _⟩ ↦ ?_⟩
      cases atEnd <;> cases h
    | cons elem bytes =>
      rw [take_succ_cons, length_cons]
      have hstep : decodeFrom val n (elem :: bytes.take k) =
          match visitByte elem val n with
          | .error _ => .error ()
          | .ok (.more newVal) => decodeFrom newVal (n + 1) (bytes.take k)
          | .ok (.done newVal) => .ok (newVal, saturatingAdd 64 n 1) := rfl
      simp only [hstep, visitFrom_cons_eq_ok]
      rcases visitByte elem val n with e | (w | w)
      · simp
      · have hadd : saturatingAdd 64 n 1 = n + 1 := by
          rw [saturatingAdd]
          omega
        simp only [hadd, ok.injEq, Prod.mk.injEq, VisitStatus.done.injEq, reduceCtorEq,
          false_and, exists_false, or_false]
        constructor
        · rintro ⟨rfl, rfl⟩
          exact ⟨bytes, ⟨rfl, rfl⟩, by omega⟩
        rintro ⟨rest, ⟨rfl, rfl⟩, hlen⟩
        exact ⟨rfl, by omega⟩
      simp only [ok.injEq, VisitStatus.more.injEq, reduceCtorEq, false_and, false_or,
        exists_eq_left']
      rw [ih (by omega)]
      refine exists_congr fun rest ↦ and_congr_right fun _ ↦ ?_
      omega

/-- The two decoders agree on what they accept, on the value and on the bytes it takes. -/
theorem decodeShortu16Len_eq_ok {bytes : List UInt8} {v m : ℕ} :
    decodeShortu16Len bytes = .ok (v, m) ↔
      ∃ rest, visitSeq atEnd bytes = .ok (v, rest) ∧ bytes.length = m + rest.length := by
  rw [decodeShortu16Len, decodeFrom_eq_ok rfl, zero_add]
  rfl

lemma decodeShortu16Len_append (h : v < 2 ^ 16) (rest : List UInt8) :
    decodeShortu16Len (serialize v ++ rest) = .ok (v, (serialize v).length) := by
  refine (@decodeShortu16Len_eq_ok none _ _ _).mpr ⟨rest, visitSeq_eq_ok.mpr ⟨h, rfl⟩, ?_⟩
  rw [length_append]

end ShortU16

/-! ### Vectors -/

/-- The length of a vector. A writer refuses one that is not a `u16`; the reader is the one of
`bincode`. -/
def shortLen : Codec UInt8 SerdeError ℕ where
  encode len :=
    if len > 2 ^ 16 - 1 then .error (.custom "length larger than u16")
    else .ok (ShortU16.serialize len)
  decode := ShortU16.visitSeq (some .unexpectedEof)

lemma shortLen_encode_eq_ok {len : ℕ} {bytes : List UInt8} :
    shortLen.encode len = .ok bytes ↔ len < 2 ^ 16 ∧ bytes = ShortU16.serialize len := by
  rw [shortLen]
  dsimp only
  rw [ite_error_eq_ok, ok.injEq, eq_comm]
  exact and_congr_left fun _ ↦ by omega

lemma shortLen_exact : shortLen.Exact where
  roundTrips len bytes rest h := by
    obtain ⟨hlt, rfl⟩ := shortLen_encode_eq_ok.mp h
    exact ShortU16.visitSeq_eq_ok.mpr ⟨hlt, rfl⟩
  canonical input len rest h := by
    obtain ⟨hlt, rfl⟩ := ShortU16.visitSeq_eq_ok.mp h
    exact ⟨_, shortLen_encode_eq_ok.mpr ⟨hlt, rfl⟩, rfl⟩

/-- `short_vec::serialize` and `short_vec::deserialize`, with the codec of the elements. -/
def shortVec {α : Type} (elements : Codec UInt8 SerdeError α) : Codec UInt8 SerdeError (List α) :=
  counted shortLen elements

lemma shortVec_exact {α : Type} {elements : Codec UInt8 SerdeError α} (h : elements.Exact) :
    (shortVec elements).Exact :=
  shortLen_exact.counted h

lemma shortVec_encode_eq_ok {α : Type} {elements : Codec UInt8 SerdeError α}
    {e : α → List UInt8} (h : ∀ a, elements.encode a = .ok (e a)) {l : List α}
    {bytes : List UInt8} :
    (shortVec elements).encode l = .ok bytes ↔
      l.length < 2 ^ 16 ∧ bytes = ShortU16.serialize l.length ++ l.flatMap e := by
  rw [shortVec, counted_encode_eq_ok, encodeAll_eq_flatMap h]
  constructor
  · rintro ⟨first, others, hfirst, hothers, rfl⟩
    obtain ⟨hlt, rfl⟩ := shortLen_encode_eq_ok.mp hfirst
    cases hothers
    exact ⟨hlt, rfl⟩
  rintro ⟨hlt, rfl⟩
  exact ⟨_, _, shortLen_encode_eq_ok.mpr ⟨hlt, rfl⟩, rfl, rfl⟩

/-- **Short vectors are unambiguous.** A vector that fits is read back from its encoding; only the
encoding of a value is read as that value; and the two decoders agree on every list of bytes. -/
theorem shortVec_unambiguous {α : Type} (elements : Codec UInt8 SerdeError α)
    (helements : elements.RoundTrips) (atEnd : Option SerdeError) :
    (∀ v : List α, v.length < 65536 → (∀ a ∈ v, ∃ bytes, elements.encode a = .ok bytes) →
      ∃ bytes, (shortVec elements).encode v = .ok bytes ∧
        ∀ rest, (shortVec elements).decode (bytes ++ rest) = .ok (v, rest)) ∧
    (∀ bytes rest value, ShortU16.visitSeq atEnd bytes = .ok (value, rest) →
      value < 65536 ∧ bytes = ShortU16.serialize value ++ rest) ∧
    ∀ bytes value taken, ShortU16.decodeShortu16Len bytes = .ok (value, taken) ↔
      ∃ rest, ShortU16.visitSeq atEnd bytes = .ok (value, rest) ∧
        bytes.length = taken + rest.length := by
  refine ⟨fun v hlen hencode ↦ ?_, fun bytes rest value h ↦ ShortU16.visitSeq_eq_ok.mp h,
    fun bytes value taken ↦ ShortU16.decodeShortu16Len_eq_ok⟩
  obtain ⟨others, hothers⟩ := exists_encodeAll hencode
  have hv : (shortVec elements).encode v = .ok (ShortU16.serialize v.length ++ others) :=
    counted_encode_eq_ok.mpr ⟨_, others, shortLen_encode_eq_ok.mpr ⟨hlen, rfl⟩, hothers, rfl⟩
  exact ⟨_, hv, fun rest ↦ shortLen_exact.roundTrips.counted helements rest hv⟩

/-- Three hundred bytes: the length takes two. -/
theorem shortVec_unambiguous_bytes :
    (symbol SerdeError.unexpectedEof : Codec UInt8 SerdeError UInt8).RoundTrips ∧
      ∃ bytes, (shortVec (symbol .unexpectedEof)).encode (replicate 300 7) = .ok bytes ∧
        (shortVec (symbol .unexpectedEof)).decode (bytes ++ []) = .ok (replicate 300 7, []) := by
  have hsymbol := (@symbol_exact UInt8 _ SerdeError.unexpectedEof).roundTrips
  obtain ⟨bytes, hencode, hdecode⟩ := (shortVec_unambiguous _ hsymbol none).1
    (replicate 300 7) (by rw [length_replicate]; decide) fun a _ ↦ ⟨[a], rfl⟩
  exact ⟨hsymbol, bytes, hencode, hdecode []⟩

end Renec
