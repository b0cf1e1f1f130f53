import Mathlib
import YaraAhoCorasick.CaseCombinations

namespace YaraAhoCorasick.TokenBuffer

open YaraAhoCorasick.Tokens YaraAhoCorasick.CaseCombinations

/-- The bytes the records take in the output buffer: two ints and the token bytes each,
then the terminating zero length. -/
def tokensSize (records : List TokenRecord) : Nat :=
  (records.map (fun r => 2 * sizeofInt + r.token.length)).sum + sizeofInt

/-- The size of the buffer `yr_ac_add_string` allocates for the tokens of one string. -/
def tokensBufferSize : Nat := 2 * (1 <<< maxToken) * (2 * sizeofInt + maxToken) + sizeofInt

/-- A regular expression with no literal prefix whose first byte can be any byte. -/
def anyFirstByteRegexp : YrString :=
  ⟨false, true, false, false, false, ".*abc".toList.map Char.toUInt8, [],
    (List.range 256).map UInt8.ofNat⟩

theorem tokensSize_first_bytes (bytes : List UInt8) :
    tokensSize (bytes.map (fun b => ⟨0, [b]⟩)) = bytes.length * (2 * sizeofInt + 1) + sizeofInt := by
  simp [tokensSize, Function.comp_def, List.sum_replicate, Nat.nsmul_eq_mul]

theorem gen_tokens_any_first_byte (tables : RegexTables) :
    yrAcGenTokens tables anyFirstByteRegexp maxToken =
      anyFirstByteRegexp.firstBytes.map (fun b => ⟨0, [b]⟩) := by
  simp +decide [yrAcGenTokens, yrAcGenRegexpTokens, anyFirstByteRegexp, regexpTokenScan]

theorem gen_tokens_regexp_overflows_buffer (tables : RegexTables) :
    tokensBufferSize < tokensSize (yrAcGenTokens tables anyFirstByteRegexp maxToken) := by
  rw [gen_tokens_any_first_byte, tokensSize_first_bytes]
  simp [anyFirstByteRegexp, tokensBufferSize, maxToken, sizeofInt]

theorem literalTokens_length (isNoCase : Bool) (t : List UInt8) :
    (literalTokens isNoCase t).length = if isNoCase then 2 ^ t.countP isLetter else 1 := by
  cases isNoCase with
  | false => rfl
  | true =>
    rw [literalTokens, if_pos rfl, List.length_cons, if_pos rfl]
    rcases Nat.eq_zero_or_pos t.length with h | h
    · rw [List.length_eq_zero.mp h]
      rfl
    · have := (caseCombinations_variants t 0 h).length_eq
      rw [List.length_map, List.length_map, length_filter_sublists', letterPositions_length] at this
      have := @Nat.one_le_two_pow (t.countP isLetter)
      omega

theorem literalTokens_length_le (isNoCase : Bool) {t : List UInt8} (ht : t.length ≤ maxToken) :
    (literalTokens isNoCase t).length ≤ 2 ^ maxToken := by
  rw [literalTokens_length]
  split_ifs
  · exact Nat.pow_le_pow_right (by decide) ((List.countP_le_length _).trans ht)
  · exact Nat.one_le_two_pow

theorem tokensSize_le {records : List TokenRecord}
    (h : ∀ r ∈ records, r.token.length ≤ maxToken) :
    tokensSize records ≤ records.length * (2 * sizeofInt + maxToken) + sizeofInt := by
  have := List.sum_le_card_nsmul (records.map fun r => 2 * sizeofInt + r.token.length)
    (2 * sizeofInt + maxToken) (by simpa using fun r hr => h r hr)
  rw [List.length_map, smul_eq_mul] at this
  exact Nat.add_le_add_right this _

theorem gen_tokens_length_le (tables : RegexTables) (string : YrString)
    (h : ¬ (string.isHex = false ∧ string.isRegexp = true ∧
      regexpTokenScan tables maxToken []
        (if string.string.headD 0 = '^'.toUInt8 then string.string.drop 1 else string.string) = [])) :
    (yrAcGenTokens tables string maxToken).length ≤ 2 * 2 ^ maxToken := by
  unfold yrAcGenTokens
  by_cases hhex : string.isHex = true
  · simp [hhex, yrAcGenHexTokens, maxToken]
  rw [if_neg hhex]
  by_cases hre : string.isRegexp = true
  · rw [if_pos hre]
    dsimp only [yrAcGenRegexpTokens]
    generalize (if string.string.headD 0 = '^'.toUInt8 then string.string.drop 1
      else string.string) = source at h ⊢
    split_ifs with hpos
    · have := literalTokens_length_le string.isNoCase
        (regexpTokenScan_length_le tables maxToken [] source (Nat.zero_le _))
      omega
    · exact absurd ⟨by simpa using hhex, hre, List.length_eq_zero.mp (Nat.eq_zero_of_not_pos hpos)⟩ h
  rw [if_neg hre, List.length_append, Nat.two_mul]
  refine Nat.add_le_add ?_ ?_ <;> split_ifs
  · exact literalTokens_length_le _ (by simp)
  · simp
  · exact literalTokens_length_le _ (by simp [wideToken_length])
  · simp

/-- The records fit the 388-byte buffer of `yr_ac_add_string` exactly when the string is not a
regular expression with no literal prefix and more than 42 first bytes. -/
theorem gen_tokens_fit_buffer_iff (tables : RegexTables) (string : YrString) :
    tokensSize (yrAcGenTokens tables string maxToken) ≤ tokensBufferSize ↔
      ¬ (string.isHex = false ∧ string.isRegexp = true ∧
        regexpTokenScan tables maxToken []
          (if string.string.headD 0 = '^'.toUInt8 then string.string.drop 1 else string.string) = [] ∧
        42 < string.firstBytes.length) := by
  by_cases hcase : string.isHex = false ∧ string.isRegexp = true ∧ regexpTokenScan tables maxToken []
      (if string.string.headD 0 = '^'.toUInt8 then string.string.drop 1 else string.string) = []
  · obtain ⟨hh, hr, hs⟩ := hcase
    have heq : yrAcGenTokens tables string maxToken = string.firstBytes.map fun b => ⟨0, [b]⟩ := by
      rw [yrAcGenTokens, if_neg (by simp [hh]), if_pos hr]
      dsimp only [yrAcGenRegexpTokens]
      rw [hs]
      rfl
    rw [heq, tokensSize_first_bytes, show tokensBufferSize = 388 from rfl]
    simp only [hh, hr, hs, true_and, not_lt, sizeofInt]
    omega
  · have hsize := tokensSize_le (yrAcGenTokens_length_le tables string)
    have hcount := gen_tokens_length_le tables string hcase
    refine iff_of_true ?_ fun ⟨hh, hr, hs, _⟩ => hcase ⟨hh, hr, hs⟩
    rw [show tokensBufferSize = 388 from rfl]
    simp only [sizeofInt, maxToken] at hsize hcount ⊢
    omega

end YaraAhoCorasick.TokenBuffer
