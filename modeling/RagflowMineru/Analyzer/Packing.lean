import RagflowMineru.Analyzer.BestTokens
import Mathlib.Algebra.Order.Ring.Abs
import Mathlib.Data.Nat.Bitwise

/-!
# Frequency and part of speech in one dictionary value

The value of a key is a 32-bit integer: the part of speech in the high 8 bits, the
sign of the frequency in bit 23 and its amount below.  The trie answers a key that
it does not have with a negative number, and a part of speech from 128 on sets the
sign bit of the whole value.
-/

namespace RagflowMineru.Analyzer.Packing

/-- `Encode`. -/
def encode (freq idx : Int32) : Int32 :=
  let encodedValue : UInt32 :=
    if freq < 0 then (-freq).toUInt32 ||| (1 : UInt32) <<< 23
    else (freq &&& 0x7FFFFF).toUInt32
  (encodedValue ||| idx.toUInt32 <<< 24).toInt32

/-- `DecodeFreq`. -/
def decodeFreq (value : Int32) : Int32 :=
  let v1 := value.toUInt32 &&& 0xFFFFFF
  if v1 &&& (1 : UInt32) <<< 23 ≠ 0 then -(v1 &&& 0x7FFFFF).toInt32
  else v1.toInt32

/-- `DecodePOSIndex`. -/
def decodePOSIndex (value : Int32) : Int32 :=
  (value.toUInt32 >>> 24).toInt32

/-- The keys that were added, with their values. -/
structure DartsTrie where
  entries : List (Text × Int32)

namespace DartsTrie

variable (trie : DartsTrie) (key : Text)

/-- `Get`: the value, or `-1`. -/
def get : Int32 :=
  (trie.entries.lookup key).getD (-1)

/-- `Traverse`: the value, `-1` for a part of a longer key only, `-2` for no key at all. -/
def traverse : Int32 :=
  match trie.entries.lookup key with
  | some value => value
  | none => if trie.entries.any fun entry => key.isPrefixOf entry.1 then -1 else -2

/-- `HasKeysWithPrefix`. -/
def hasKeysWithPrefix : Bool :=
  trie.traverse key != -2

/-- The tests that the analyzer makes on an answer, none of which takes the key for absent. -/
def Finds : Prop :=
  trie.get key ≠ -1 ∧ trie.traverse key ≥ 0 ∧ trie.hasKeysWithPrefix key = true

end DartsTrie

/-- What `Build` takes: the library throws "failed to build double-array: negative value". -/
def DartsTrie.Buildable (trie : DartsTrie) : Prop :=
  ∀ entry ∈ trie.entries, 0 ≤ entry.2.toInt

/-- The values as numbers. -/
def DartsTrie.toNat (trie : DartsTrie) : Analyzer.DartsTrie :=
  ⟨trie.entries.map fun entry => (entry.1, entry.2.toUInt32.toNat)⟩

/-! ## The words as numbers -/

theorem toInt_eq (x : Int32) :
    x.toInt =
      if x.toUInt32.toNat < 2 ^ 31 then (x.toUInt32.toNat : ℤ) else x.toUInt32.toNat - 2 ^ 32 := by
  have hcond := BitVec.toInt_eq_toNat_cond x.toBitVec
  have hiff : 2 * x.toBitVec.toNat < 2 ^ 32 ↔ x.toUInt32.toNat < 2 ^ 31 := by
    show 2 * x.toBitVec.toNat < 2 ^ 32 ↔ x.toBitVec.toNat < 2 ^ 31
    omega
  simp only [hiff] at hcond
  exact_mod_cast hcond

theorem toNat_of_nonneg {x : Int32} (h : 0 ≤ x.toInt) : (x.toUInt32.toNat : ℤ) = x.toInt := by
  have hlt := x.toUInt32.toNat_lt
  rw [toInt_eq] at h ⊢
  split at h
  · next hx => rw [if_pos hx]
  · omega

theorem lookup_toNat (entries : List (Text × Int32)) (key : Text) :
    (entries.map fun entry => (entry.1, entry.2.toUInt32.toNat)).lookup key =
      (entries.lookup key).map fun value => value.toUInt32.toNat := by
  induction entries with
  | nil => rfl
  | cons entry rest ih =>
    rw [List.map_cons, List.lookup_cons, List.lookup_cons]
    split
    · simp
    · exact ih

/-- A trie that could be built answers as the one with numbers does. -/
theorem toInt_traverse {trie : DartsTrie} (h : trie.Buildable) (key : Text) :
    (trie.traverse key).toInt = trie.toNat.traverse key := by
  unfold DartsTrie.traverse Analyzer.DartsTrie.traverse DartsTrie.toNat
  rw [lookup_toNat]
  cases hl : trie.entries.lookup key with
  | some value =>
    obtain ⟨l₁, l₂, hentries, -⟩ := List.lookup_eq_some_iff.mp hl
    have hmem : (key, value) ∈ trie.entries := by
      simp [hentries]
    exact (toNat_of_nonneg (h (key, value) hmem)).symm
  | none =>
    simp only [Option.map_none, List.any_map, Function.comp_def]
    split
    · rfl
    · rfl

theorem toNat_neg {x : Int32} (h : x.toInt < 0) (hmin : -2 ^ 31 < x.toInt) :
    ((-x).toUInt32.toNat : ℤ) = -x.toInt := by
  have hneg : (-x).toInt = -x.toInt := by
    rw [Int32.toInt_neg, Int.bmod_eq_of_le]
    · omega
    · omega
  rw [toNat_of_nonneg (by omega), hneg]

/-- A low half under a shifted word. -/
theorem toNat_or_shiftLeft {low high : UInt32} (hlow : low.toNat < 2 ^ 24)
    (hhigh : high.toNat < 2 ^ 8) :
    (low ||| high <<< 24).toNat = 2 ^ 24 * high.toNat + low.toNat := by
  have hshift : (high <<< 24).toNat = high.toNat <<< 24 := by
    rw [UInt32.toNat_shiftLeft]
    show high.toNat <<< 24 % 2 ^ 32 = high.toNat <<< 24
    rw [Nat.shiftLeft_eq]
    exact Nat.mod_eq_of_lt (by omega)
  rw [UInt32.toNat_or, hshift, Nat.or_comm, ← Nat.shiftLeft_add_eq_or_of_lt hlow,
    Nat.shiftLeft_eq, Nat.mul_comm]

theorem toNat_or_sign {low : UInt32} (hlow : low.toNat < 2 ^ 23) :
    (low ||| (1 : UInt32) <<< 23).toNat = 2 ^ 23 + low.toNat := by
  have hsign : ((1 : UInt32) <<< 23).toNat = 2 ^ 23 * 1 := rfl
  rw [UInt32.toNat_or, hsign, Nat.or_comm, ← Nat.two_pow_add_eq_or_of_lt hlow, Nat.mul_one]

theorem toNat_and_low (x : UInt32) (n : ℕ) {mask : UInt32} (hmask : mask.toNat = 2 ^ n - 1) :
    (x &&& mask).toNat = x.toNat % 2 ^ n := by
  rw [UInt32.toNat_and, hmask, Nat.and_two_pow_sub_one_eq_mod]

theorem toInt_toInt32 {x : UInt32} (h : x.toNat < 2 ^ 31) : x.toInt32.toInt = x.toNat := by
  rw [toInt_eq, UInt32.toUInt32_toInt32, if_pos h]

theorem toInt_neg_toInt32 {x : UInt32} (h : x.toNat < 2 ^ 31) : (-x.toInt32).toInt = -x.toNat := by
  rw [Int32.toInt_neg, toInt_toInt32 h, Int.bmod_eq_of_le]
  · omega
  · omega

theorem and_sign_eq_zero_iff (x : UInt32) :
    x &&& (1 : UInt32) <<< 23 = 0 ↔ x.toNat.testBit 23 = false := by
  have hsign : ((1 : UInt32) <<< 23).toNat = 2 ^ 23 := rfl
  rw [← UInt32.toNat_inj, UInt32.toNat_and, hsign, Nat.and_two_pow]
  cases hbit : x.toNat.testBit 23 with
  | false => simp
  | true => simp

/-- On words and on numbers the frequency is the same. -/
theorem toInt_decodeFreq (value : Int32) :
    (decodeFreq value).toInt = Analyzer.decodeFreq value.toUInt32.toNat := by
  have hlow : (value.toUInt32 &&& 0xFFFFFF).toNat = value.toUInt32.toNat % 2 ^ 24 :=
    toNat_and_low _ 24 rfl
  have hamount : (value.toUInt32 &&& 0xFFFFFF &&& 0x7FFFFF).toNat =
      value.toUInt32.toNat % 2 ^ 24 % 2 ^ 23 := by
    rw [toNat_and_low _ 23 rfl, hlow]
  have hsmall : value.toUInt32.toNat % 2 ^ 24 < 2 ^ 24 := Nat.mod_lt _ (by norm_num)
  have hsmall' : value.toUInt32.toNat % 2 ^ 24 % 2 ^ 23 < 2 ^ 23 := Nat.mod_lt _ (by norm_num)
  have hbit := and_sign_eq_zero_iff (value.toUInt32 &&& 0xFFFFFF)
  rw [hlow] at hbit
  simp only [decodeFreq, Analyzer.decodeFreq, ne_eq, hbit, Bool.not_eq_false]
  split
  · rw [toInt_neg_toInt32 (by omega), hamount]
  · rw [toInt_toInt32 (by omega), hlow]

theorem toInt_decodePOSIndex (value : Int32) :
    (decodePOSIndex value).toInt = (value.toUInt32.toNat / 2 ^ 24 : ℕ) := by
  have hlt := value.toUInt32.toNat_lt
  have hshift : (value.toUInt32 >>> 24).toNat = value.toUInt32.toNat / 2 ^ 24 := by
    rw [UInt32.toNat_shiftRight]
    exact Nat.shiftRight_eq_div_pow _ _
  rw [decodePOSIndex, toInt_toInt32 (by omega), hshift]

/-! ## Decoding what was encoded -/

/-- The amount of a frequency, with bit 23 as its sign. -/
def freqBits (freq : ℤ) : ℕ :=
  if freq < 0 then 2 ^ 23 + freq.natAbs else freq.natAbs

theorem freqBits_of_neg {freq : ℤ} (h : freq < 0) : freqBits freq = 2 ^ 23 + freq.natAbs :=
  if_pos h

theorem freqBits_of_nonneg {freq : ℤ} (h : 0 ≤ freq) : freqBits freq = freq.natAbs :=
  if_neg (not_lt.2 h)

theorem decodeFreq_of_mod_eq {value : ℕ} {freq : ℤ} (hfreq : |freq| < 2 ^ 23)
    (h : value % 2 ^ 24 = freqBits freq) : Analyzer.decodeFreq value = freq := by
  rw [abs_lt] at hfreq
  rcases lt_or_ge freq 0 with hneg | hnonneg
  · have hamount : (freq.natAbs : ℤ) = -freq := Int.ofNat_natAbs_of_nonpos hneg.le
    have hbit : (2 ^ 23 + freq.natAbs).testBit 23 = true := by
      rw [Nat.testBit_two_pow_add_eq, Nat.testBit_lt_two_pow (by omega), Bool.not_false]
    rw [freqBits_of_neg hneg] at h
    simp only [Analyzer.decodeFreq, h, hbit, if_true]
    rw [Nat.add_mod_left, Nat.mod_eq_of_lt (by omega), hamount, neg_neg]
  · have hamount : (freq.natAbs : ℤ) = freq := Int.natAbs_of_nonneg hnonneg
    have hbit : freq.natAbs.testBit 23 = false := Nat.testBit_lt_two_pow (by omega)
    rw [freqBits_of_nonneg hnonneg] at h
    simp only [Analyzer.decodeFreq, h, hbit]
    exact hamount

section Encoding

variable {freq idx : Int32} (hfreq : |freq.toInt| < 2 ^ 23)

include hfreq

theorem freqBits_lt : freqBits freq.toInt < 2 ^ 24 := by
  rw [abs_lt] at hfreq
  unfold freqBits
  split
  · omega
  · omega

variable (hidx : 0 ≤ idx.toInt) (hidx' : idx.toInt < 256)

include hidx hidx'

theorem toNat_encode :
    ((encode freq idx).toUInt32.toNat : ℤ) = 2 ^ 24 * idx.toInt + freqBits freq.toInt := by
  have hbits := freqBits_lt hfreq
  have hhigh := toNat_of_nonneg hidx
  rw [abs_lt] at hfreq
  have hlow : (if freq < 0 then (-freq).toUInt32 ||| (1 : UInt32) <<< 23
      else (freq &&& 0x7FFFFF).toUInt32).toNat = freqBits freq.toInt := by
    have hzero : freq < 0 ↔ freq.toInt < 0 := Int32.lt_iff_toInt_lt
    simp only [hzero, freqBits]
    split
    · next hneg =>
      have hnat := toNat_neg hneg (by omega)
      rw [toNat_or_sign (by omega)]
      omega
    · next hneg =>
      have hnat := toNat_of_nonneg (not_lt.1 hneg)
      rw [Int32.toUInt32_and, toNat_and_low _ 23 rfl]
      omega
  rw [encode, UInt32.toUInt32_toInt32, toNat_or_shiftLeft (by rw [hlow]; exact hbits) (by omega),
    hlow]
  push_cast
  rw [hhigh]

theorem decodeFreq_encode : decodeFreq (encode freq idx) = freq := by
  have hvalue := toNat_encode hfreq hidx hidx'
  have hbits := freqBits_lt hfreq
  have hmod : (encode freq idx).toUInt32.toNat % 2 ^ 24 = freqBits freq.toInt := by
    omega
  rw [← Int32.toInt_inj, toInt_decodeFreq]
  exact decodeFreq_of_mod_eq hfreq hmod

theorem decodePOSIndex_encode : decodePOSIndex (encode freq idx) = idx := by
  have hvalue := toNat_encode hfreq hidx hidx'
  have hbits := freqBits_lt hfreq
  rw [← Int32.toInt_inj, toInt_decodePOSIndex]
  omega

/-- The sign bit of the value is the highest bit of the part of speech. -/
theorem encode_nonneg_iff : 0 ≤ (encode freq idx).toInt ↔ idx.toInt < 128 := by
  have hvalue := toNat_encode hfreq hidx hidx'
  have hbits := freqBits_lt hfreq
  rw [toInt_eq]
  split
  · omega
  · omega

end Encoding

theorem DartsTrie.finds_iff {trie : DartsTrie} {key : Text} {value : Int32}
    (h : trie.entries.lookup key = some value) : trie.Finds key ↔ 0 ≤ value.toInt := by
  have hget : trie.get key = value := by
    rw [get, h, Option.getD_some]
  have htraverse : trie.traverse key = value := by
    rw [traverse, h]
  have hzero : value ≥ 0 ↔ 0 ≤ value.toInt := Int32.le_iff_toInt_le
  rw [Finds, hasKeysWithPrefix, hget, htraverse, hzero, bne_iff_ne]
  constructor
  · exact fun hfinds => hfinds.2.1
  · intro hnonneg
    refine ⟨?_, hnonneg, ?_⟩
    · rintro rfl
      exact absurd hnonneg (by decide)
    · rintro rfl
      exact absurd hnonneg (by decide)

/-- What the packing promises for a frequency and a part of speech. -/
def Packs (freq idx : Int32) : Prop :=
  decodeFreq (encode freq idx) = freq ∧ decodePOSIndex (encode freq idx) = idx ∧
    ∀ (trie : DartsTrie) (key : Text),
      trie.entries.lookup key = some (encode freq idx) → trie.Finds key

theorem packs_iff {freq idx : Int32} (hfreq : |freq.toInt| < 2 ^ 23) (hidx : 0 ≤ idx.toInt)
    (hidx' : idx.toInt < 256) : Packs freq idx ↔ idx.toInt < 128 := by
  rw [← encode_nonneg_iff hfreq hidx hidx']
  constructor
  · rintro ⟨-, -, hfinds⟩
    have hlookup : [(['中'], encode freq idx)].lookup ['中'] = some (encode freq idx) := rfl
    exact (DartsTrie.finds_iff hlookup).1 (hfinds ⟨_⟩ ['中'] hlookup)
  · intro hnonneg
    refine ⟨decodeFreq_encode hfreq hidx hidx', decodePOSIndex_encode hfreq hidx hidx', ?_⟩
    exact fun trie key hlookup => (DartsTrie.finds_iff hlookup).2 hnonneg

theorem packs_iff_noun : Packs 3 20 ↔ (20 : Int32).toInt < 128 :=
  packs_iff (by decide) (by decide) (by decide)

theorem not_packs_half :
    ¬ ∀ freq idx : Int32, |freq.toInt| < 2 ^ 23 → 0 ≤ idx.toInt → idx.toInt < 256 →
      Packs freq idx := by
  intro h
  have hfinds := (h 3 128 (by decide) (by decide) (by decide)).2.2
    ⟨[(['中'], encode 3 128)]⟩ ['中'] rfl
  have hnonneg : 0 ≤ (encode 3 128).toInt := (DartsTrie.finds_iff rfl).1 hfinds
  exact absurd hnonneg (by decide)

/-- One part of speech from 128 on is enough for the dictionary not to be built. -/
theorem buildable_encode_iff {lines : List (Text × Int32 × Int32)}
    (h : ∀ line ∈ lines, |line.2.1.toInt| < 2 ^ 23 ∧ 0 ≤ line.2.2.toInt ∧ line.2.2.toInt < 256) :
    DartsTrie.Buildable ⟨lines.map fun line => (line.1, encode line.2.1 line.2.2)⟩ ↔
      ∀ line ∈ lines, line.2.2.toInt < 128 := by
  unfold DartsTrie.Buildable
  rw [List.forall_mem_map]
  refine forall₂_congr fun line hline => ?_
  obtain ⟨hfreq, hidx, hidx'⟩ := h line hline
  exact encode_nonneg_iff hfreq hidx hidx'

/-- The one value that `Get` takes for no key. -/
theorem encode_eq_neg_one_iff {freq idx : Int32} (hfreq : |freq.toInt| < 2 ^ 23)
    (hidx : 0 ≤ idx.toInt) (hidx' : idx.toInt < 256) :
    encode freq idx = -1 ↔ freq = -0x7FFFFF ∧ idx = 255 := by
  constructor
  · intro h
    have hdecode := decodeFreq_encode hfreq hidx hidx'
    have hdecode' := decodePOSIndex_encode hfreq hidx hidx'
    rw [h] at hdecode hdecode'
    exact ⟨hdecode.symm, hdecode'.symm⟩
  · rintro ⟨rfl, rfl⟩
    rfl

end RagflowMineru.Analyzer.Packing
