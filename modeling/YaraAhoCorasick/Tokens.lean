import Mathlib.Data.List.Basic
import Mathlib.Tactic.LiftLets

namespace YaraAhoCorasick.Tokens

/-- `MAX_TOKEN`, the longest token `yr_ac_add_string` inserts in the automaton. -/
def maxToken : Nat := 4

/-- `sizeof(int)`, the width of the length and backtrack fields of a token record. -/
def sizeofInt : Nat := 4

/-- An element of a hex string's mask stream: a significant literal (`0xFF`), a masked wildcard or
a sentinel; `MASK_END` is the end of the list. -/
inductive MaskElem where
  | literal
  | wildcard (mask : UInt8)
  | maskOr
  | maskOrEnd
  | maskExactSkip (count : UInt8)
  | maskRangeSkip
deriving DecidableEq, Repr

/-- The fields of a `STRING` the token generator reads, with the answer of
`yr_regex_get_first_bytes` for its compiled regex. -/
structure YrString where
  isHex : Bool
  isRegexp : Bool
  isAscii : Bool
  isWide : Bool
  isNoCase : Bool
  string : List UInt8
  mask : List MaskElem
  firstBytes : List UInt8
deriving DecidableEq, Repr

/-- The character tables `isregexescapable` and `isregexhashable`, declared outside this
file; the model takes them as given. -/
structure RegexTables where
  isregexescapable : UInt8 → Bool
  isregexhashable : UInt8 → Bool

/-- One record `[length] [backtrack] [token]` of the output buffer; its length field is
the length of `token`. -/
structure TokenRecord where
  backtrack : Int
  token : List UInt8
deriving DecidableEq, Repr

def isLetter (c : UInt8) : Bool :=
  ('a'.toUInt8 ≤ c && c ≤ 'z'.toUInt8) || ('A'.toUInt8 ≤ c && c ≤ 'Z'.toUInt8)

def swapCase (c : UInt8) : UInt8 :=
  if 'a'.toUInt8 ≤ c && c ≤ 'z'.toUInt8 then c - 32 else c + 32

/-- The recursion of `_yr_ac_gen_case_combinations` from `tokenOffset`, with `fuel`
bounding the positions left. A byte past the token reads as zero. -/
def caseCombinations (tokenLength : Nat) (tokenBacktrack : Int) :
    Nat → List UInt8 → Nat → List TokenRecord
  | 0, _, _ => []
  | fuel + 1, token, tokenOffset =>
    let rest := fun t => if tokenOffset + 1 < tokenLength then
      caseCombinations tokenLength tokenBacktrack fuel t (tokenOffset + 1) else []
    let c := token.getD tokenOffset 0
    if isLetter c then
      let newToken := token.set tokenOffset (swapCase c)
      rest token ++ ⟨tokenBacktrack, newToken⟩ :: rest newToken
    else rest token

def yrAcGenCaseCombinations (token : List UInt8) (tokenLength tokenOffset : Nat)
    (tokenBacktrack : Int) : List TokenRecord :=
  caseCombinations tokenLength tokenBacktrack (tokenLength - tokenOffset) token tokenOffset

/-- The local variables of `_yr_ac_gen_hex_tokens` between two iterations of its loop. -/
structure HexTokenScan where
  insideOr : Bool
  tokenLength : Nat
  backtrack : Int
  uniqueBytes : Nat
  maxUniqueBytes : Nat
  candidateTokenPosition : Int
  candidateTokenLength : Nat
  candidateTokenBacktrack : Int
  orStringLength : Nat
  previousOrStringLength : Nat
  stringPosition : Nat
  last : Nat → UInt8

def HexTokenScan.init : HexTokenScan :=
  ⟨false, 0, 0, 0, 0, 0, 0, 0, 0, 0, 0, fun _ => 0⟩

/-- The count of the nested loops over `last`: one, plus each `i < max - 1` whose byte
differs from every later one. -/
def uniqueCount (maxTokenLength : Nat) (last : Nat → UInt8) : Nat :=
  1 + ((List.range (maxTokenLength - 1)).filter
    (fun i => (List.range maxTokenLength).all (fun j => j ≤ i || last i != last j))).length

def isSkipOrOr : MaskElem → Bool
  | .maskOr | .maskOrEnd | .maskExactSkip _ | .maskRangeSkip => true
  | _ => false

/-- The significant-literal branch of the loop body: the run grows, the byte enters
`last`, and a better window becomes the candidate. `false` is the `break`. -/
def hexLiteral (string : List UInt8) (maxTokenLength : Nat) (s : HexTokenScan) :
    HexTokenScan × Bool :=
  let tokenLength := min (s.tokenLength + 1) maxTokenLength
  let last := Function.update s.last (s.stringPosition % maxTokenLength)
    (string.getD s.stringPosition 0)
  let uniqueBytes := uniqueCount maxTokenLength last
  let s := { s with tokenLength := tokenLength, last := last, uniqueBytes := uniqueBytes }
  if s.maxUniqueBytes < uniqueBytes || s.candidateTokenLength < tokenLength then
    let s := { s with
      maxUniqueBytes := uniqueBytes
      candidateTokenPosition := s.stringPosition - tokenLength + 1
      candidateTokenBacktrack := s.backtrack - tokenLength + 1
      candidateTokenLength := tokenLength }
    (s, !(tokenLength == maxTokenLength && uniqueBytes == maxTokenLength))
  else (s, true)

/-- The bookkeeping after the literal test: positions advance on byte elements, skips
add to the backtrack, a range skip or an alternative of another length stops. -/
def hexAdvance (e : MaskElem) (s : HexTokenScan) : HexTokenScan × Bool :=
  let s := if isSkipOrOr e then s else
    if s.insideOr then
      { s with stringPosition := s.stringPosition + 1, orStringLength := s.orStringLength + 1 }
    else { s with stringPosition := s.stringPosition + 1, backtrack := s.backtrack + 1 }
  match e with
  | .maskExactSkip count => ({ s with backtrack := s.backtrack + count.toNat }, true)
  | .maskRangeSkip => (s, false)
  | .maskOr | .maskOrEnd =>
    let previous := if s.previousOrStringLength = 0 then s.orStringLength
      else s.previousOrStringLength
    if s.orStringLength ≠ previous then ({ s with previousOrStringLength := previous }, false)
    else if e = .maskOrEnd then
      ({ s with
          orStringLength := 0
          backtrack := s.backtrack + previous
          previousOrStringLength := 0 }, true)
    else ({ s with orStringLength := 0, previousOrStringLength := previous }, true)
  | _ => (s, true)

/-- The start of the loop body: `last` is refilled at the start of a run, and `MASK_OR`
and `MASK_OR_END` enter and leave an alternation. -/
def hexPrepare (string : List UInt8) (s : HexTokenScan) (e : MaskElem) : HexTokenScan :=
  let s := if s.tokenLength = 0 then
    { s with last := fun _ => string.getD s.stringPosition 0 } else s
  if e = .maskOr then { s with insideOr := true }
  else if e = .maskOrEnd then { s with insideOr := false } else s

/-- One iteration of the `while (*mask != MASK_END)` loop; `false` is a `break`. -/
def hexStep (string : List UInt8) (maxTokenLength : Nat) (s : HexTokenScan) (e : MaskElem) :
    HexTokenScan × Bool :=
  let s := hexPrepare string s e
  if e = .literal ∧ s.insideOr = false then
    match hexLiteral string maxTokenLength s with
    | (s, true) => hexAdvance e s
    | (s, false) => (s, false)
  else hexAdvance e { s with tokenLength := 0 }

def hexLoop (string : List UInt8) (maxTokenLength : Nat) :
    List MaskElem → HexTokenScan → HexTokenScan
  | [], s => s
  | e :: es, s =>
    match hexStep string maxTokenLength s e with
    | (s, true) => hexLoop string maxTokenLength es s
    | (s, false) => s

/-- `_yr_ac_gen_hex_tokens`: the one record it writes, the candidate window. -/
def yrAcGenHexTokens (string : YrString) (maxTokenLength : Nat) : List TokenRecord :=
  let s := hexLoop string.string maxTokenLength string.mask HexTokenScan.init
  [⟨s.candidateTokenBacktrack, (List.range s.candidateTokenLength).map
    (fun j => string.string.getD (s.candidateTokenPosition.toNat + j) 0)⟩]

def literalTokens (isNoCase : Bool) (token : List UInt8) : List TokenRecord :=
  ⟨0, token⟩ :: if isNoCase then yrAcGenCaseCombinations token token.length 0 0 else []

/-- The `while` loop of `_yr_ac_gen_regexp_tokens` over the source from index `i`;
`next` is zero past the end. -/
def regexpTokenScan (tables : RegexTables) (maxTokenLength : Nat) :
    List UInt8 → List UInt8 → List UInt8
  | token, [] => token
  | token, [current] =>
    if token.length < maxTokenLength then
      if current = '\\'.toUInt8 ∧ tables.isregexescapable 0 then token ++ [0]
      else if tables.isregexhashable current then token ++ [current]
      else token
    else token
  | token, current :: next :: rest =>
    if token.length < maxTokenLength then
      if current = '\\'.toUInt8 ∧ tables.isregexescapable next then
        regexpTokenScan tables maxTokenLength (token ++ [next]) rest
      else if tables.isregexhashable current ∧ next ≠ '*'.toUInt8 ∧ next ≠ '{'.toUInt8 ∧
          next ≠ '?'.toUInt8 then
        regexpTokenScan tables maxTokenLength (token ++ [current]) (next :: rest)
      else token
    else token

/-- `_yr_ac_gen_regexp_tokens`: the literal prefix and its case variants, or one
single-byte token per first byte when there is no literal prefix. -/
def yrAcGenRegexpTokens (tables : RegexTables) (string : YrString) (maxTokenLength : Nat) :
    List TokenRecord :=
  let source := if string.string.headD 0 = '^'.toUInt8 then string.string.drop 1
    else string.string
  let token := regexpTokenScan tables maxTokenLength [] source
  if 0 < token.length then literalTokens string.isNoCase token
  else string.firstBytes.map (fun b => ⟨0, [b]⟩)

def wideToken (string : List UInt8) (tokenLength : Nat) : List UInt8 :=
  (List.range tokenLength).map (fun i => if i % 2 = 0 then string.getD (i / 2) 0 else 0)

/-- `_yr_ac_gen_tokens`: the records written before the terminating zero length. -/
def yrAcGenTokens (tables : RegexTables) (string : YrString) (maxTokenLength : Nat) :
    List TokenRecord :=
  if string.isHex then yrAcGenHexTokens string maxTokenLength
  else if string.isRegexp then yrAcGenRegexpTokens tables string maxTokenLength
  else
    (if string.isAscii then
      literalTokens string.isNoCase (string.string.take (min string.string.length maxTokenLength))
    else []) ++
    (if string.isWide then
      literalTokens string.isNoCase (wideToken string.string (min (string.string.length * 2) maxTokenLength))
    else [])

theorem caseCombinations_mem (tokenLength : Nat) (tokenBacktrack : Int) (fuel : Nat)
    (token : List UInt8) (tokenOffset : Nat) (r : TokenRecord)
    (hr : r ∈ caseCombinations tokenLength tokenBacktrack fuel token tokenOffset) :
    r.token.length = token.length ∧ r.backtrack = tokenBacktrack := by
  induction fuel generalizing token tokenOffset with
  | zero => simp [caseCombinations] at hr
  | succ fuel ih =>
    have hrest : ∀ t, r ∈ (if tokenOffset + 1 < tokenLength then
        caseCombinations tokenLength tokenBacktrack fuel t (tokenOffset + 1) else []) →
        r.token.length = t.length ∧ r.backtrack = tokenBacktrack := by
      intro t ht
      split_ifs at ht
      · exact ih t _ ht
      · simp at ht
    by_cases hl : isLetter (token.getD tokenOffset 0)
    · simp only [caseCombinations, hl, ↓reduceIte, List.mem_append, List.mem_cons] at hr
      rcases hr with hr | rfl | hr
      · exact hrest token hr
      · simp
      · simpa using hrest _ hr
    · simp only [caseCombinations, hl, Bool.false_eq_true, ↓reduceIte] at hr
      exact hrest token hr

theorem literalTokens_mem (isNoCase : Bool) (token : List UInt8) (r : TokenRecord)
    (hr : r ∈ literalTokens isNoCase token) : r.token.length = token.length ∧ r.backtrack = 0 := by
  simp only [literalTokens, List.mem_cons] at hr
  rcases hr with rfl | hr
  · exact ⟨rfl, rfl⟩
  · split_ifs at hr
    · exact caseCombinations_mem _ _ _ _ _ r hr
    · simp at hr

theorem hexAdvance_candidateTokenLength (e : MaskElem) (s : HexTokenScan) :
    (hexAdvance e s).1.candidateTokenLength = s.candidateTokenLength := by
  unfold hexAdvance
  lift_lets
  intro t
  have ht : t.candidateTokenLength = s.candidateTokenLength := by
    simp only [t]; split_ifs <;> rfl
  clear_value t
  cases e
  case maskOr | maskOrEnd =>
    dsimp only
    generalize (if t.previousOrStringLength = 0 then _ else _) = previous
    split_ifs <;> exact ht
  all_goals exact ht

theorem hexPrepare_candidateTokenLength (string : List UInt8) (s : HexTokenScan) (e : MaskElem) :
    (hexPrepare string s e).candidateTokenLength = s.candidateTokenLength := by
  unfold hexPrepare
  split_ifs <;> rfl

theorem hexLiteral_candidate_le (string : List UInt8) (maxTokenLength : Nat) (s : HexTokenScan)
    (hs : s.candidateTokenLength ≤ maxTokenLength) :
    (hexLiteral string maxTokenLength s).1.candidateTokenLength ≤ maxTokenLength := by
  dsimp only [hexLiteral]
  split_ifs
  · exact min_le_right _ _
  · exact hs

theorem hexStep_candidate_le (string : List UInt8) (maxTokenLength : Nat) (s : HexTokenScan)
    (e : MaskElem) (hs : s.candidateTokenLength ≤ maxTokenLength) :
    (hexStep string maxTokenLength s e).1.candidateTokenLength ≤ maxTokenLength := by
  have hp := hexPrepare_candidateTokenLength string s e
  dsimp only [hexStep]
  split_ifs
  · have hl := hexLiteral_candidate_le string maxTokenLength (hexPrepare string s e) (hp ▸ hs)
    generalize hexLiteral string maxTokenLength (hexPrepare string s e) = x at hl ⊢
    rcases x with ⟨s', _ | _⟩
    · exact hl
    · simpa [hexAdvance_candidateTokenLength] using hl
  · simpa [hexAdvance_candidateTokenLength, hp] using hs

theorem hexLoop_candidate_le (string : List UInt8) (maxTokenLength : Nat) (mask : List MaskElem)
    (s : HexTokenScan) (hs : s.candidateTokenLength ≤ maxTokenLength) :
    (hexLoop string maxTokenLength mask s).candidateTokenLength ≤ maxTokenLength := by
  induction mask generalizing s with
  | nil => exact hs
  | cons e es ih =>
    have h := hexStep_candidate_le string maxTokenLength s e hs
    simp only [hexLoop]
    split <;> simp_all

/-- Between two iterations of `_yr_ac_gen_hex_tokens`: the candidate's backtrack is not
negative, and the run of literals is no longer than `backtrack`. -/
def HexTokenScan.BacktrackOk (s : HexTokenScan) : Prop :=
  0 ≤ s.candidateTokenBacktrack ∧ (s.tokenLength : Int) ≤ s.backtrack

theorem hexPrepare_backtrack (string : List UInt8) (s : HexTokenScan) (e : MaskElem) :
    (hexPrepare string s e).tokenLength = s.tokenLength ∧
      (hexPrepare string s e).backtrack = s.backtrack ∧
      (hexPrepare string s e).candidateTokenBacktrack = s.candidateTokenBacktrack ∧
      (e = .literal → (hexPrepare string s e).insideOr = s.insideOr) := by
  unfold hexPrepare
  split_ifs <;> simp_all

theorem hexAdvance_backtrack (e : MaskElem) (s : HexTokenScan) :
    s.backtrack ≤ (hexAdvance e s).1.backtrack ∧
      (hexAdvance e s).1.tokenLength = s.tokenLength ∧
      (hexAdvance e s).1.candidateTokenBacktrack = s.candidateTokenBacktrack ∧
      (e = .literal → s.insideOr = false → (hexAdvance e s).1.backtrack = s.backtrack + 1) := by
  unfold hexAdvance
  lift_lets
  intro t
  have ht : t.tokenLength = s.tokenLength ∧ t.candidateTokenBacktrack = s.candidateTokenBacktrack ∧
      s.backtrack ≤ t.backtrack ∧ (isSkipOrOr e = true → t = s) ∧
      (isSkipOrOr e = false → s.insideOr = false → t.backtrack = s.backtrack + 1) := by
    simp only [t]; split_ifs <;> simp_all [Int.le_add_one]
  clear_value t
  obtain ⟨h₁, h₂, h₃, h₄, h₅⟩ := ht
  cases e
  case literal => exact ⟨h₃, h₁, h₂, fun _ => h₅ rfl⟩
  case maskExactSkip count =>
    cases h₄ rfl
    dsimp only
    exact ⟨by omega, rfl, rfl, nofun⟩
  case maskOr | maskOrEnd =>
    dsimp only
    generalize (if t.previousOrStringLength = 0 then _ else _) = previous
    split_ifs <;> dsimp only <;> exact ⟨by omega, h₁, h₂, nofun⟩
  all_goals exact ⟨h₃, h₁, h₂, nofun⟩

theorem hexLiteral_backtrack (string : List UInt8) (maxTokenLength : Nat) (s : HexTokenScan)
    (hs : s.BacktrackOk) :
    0 ≤ (hexLiteral string maxTokenLength s).1.candidateTokenBacktrack ∧
      ((hexLiteral string maxTokenLength s).1.tokenLength : Int) ≤ s.backtrack + 1 ∧
      (hexLiteral string maxTokenLength s).1.backtrack = s.backtrack ∧
      (hexLiteral string maxTokenLength s).1.insideOr = s.insideOr := by
  obtain ⟨hc, hl⟩ := hs
  dsimp only [hexLiteral]
  split_ifs <;> simp <;> omega

theorem hexStep_backtrack (string : List UInt8) (maxTokenLength : Nat) (s : HexTokenScan)
    (e : MaskElem) (hs : s.BacktrackOk) :
    0 ≤ (hexStep string maxTokenLength s e).1.candidateTokenBacktrack ∧
      ((hexStep string maxTokenLength s e).2 = true →
        (hexStep string maxTokenLength s e).1.BacktrackOk) := by
  obtain ⟨htl, hbt, hc, hor⟩ := hexPrepare_backtrack string s e
  dsimp only [hexStep]
  split_ifs with hlit
  · have hl := hexLiteral_backtrack string maxTokenLength (hexPrepare string s e)
      ⟨hc ▸ hs.1, by rw [htl, hbt]; exact hs.2⟩
    generalize hexLiteral string maxTokenLength (hexPrepare string s e) = x at hl ⊢
    rcases x with ⟨s', _ | _⟩
    · exact ⟨hl.1, by simp⟩
    · obtain ⟨hge, htl', hc', hlit'⟩ := hexAdvance_backtrack e s'
      refine ⟨hc' ▸ hl.1, fun _ => ⟨hc' ▸ hl.1, ?_⟩⟩
      rw [htl', hlit' hlit.1 (hl.2.2.2.trans hlit.2), hl.2.2.1]
      exact hl.2.1
  · set s0 : HexTokenScan := { hexPrepare string s e with tokenLength := 0 } with hs0
    obtain ⟨hge, htl', hc', -⟩ := hexAdvance_backtrack e s0
    have h1 : s0.backtrack = s.backtrack := hbt
    have h2 : s0.candidateTokenBacktrack = s.candidateTokenBacktrack := hc
    refine ⟨by rw [hc', h2]; exact hs.1, fun _ => ⟨by rw [hc', h2]; exact hs.1, ?_⟩⟩
    have := hs.2
    rw [htl']
    show ((0 : Nat) : Int) ≤ _
    omega

theorem hexLoop_backtrack_nonneg (string : List UInt8) (maxTokenLength : Nat)
    (mask : List MaskElem) (s : HexTokenScan) (hs : s.BacktrackOk) :
    0 ≤ (hexLoop string maxTokenLength mask s).candidateTokenBacktrack := by
  induction mask generalizing s with
  | nil => exact hs.1
  | cons e es ih =>
    have h := hexStep_backtrack string maxTokenLength s e hs
    rcases hstep : hexStep string maxTokenLength s e with ⟨s', _ | _⟩ <;>
      rw [hstep] at h <;> simp only [hexLoop, hstep]
    · exact h.1
    · exact ih s' (h.2 rfl)

theorem regexpTokenScan_length_le (tables : RegexTables) (maxTokenLength : Nat)
    (token source : List UInt8) (h : token.length ≤ maxTokenLength) :
    (regexpTokenScan tables maxTokenLength token source).length ≤ maxTokenLength := by
  induction token, source using regexpTokenScan.induct tables maxTokenLength with
  | case1 token => exact h
  | case2 token current hlt hesc =>
    rw [regexpTokenScan, if_pos hlt, if_pos hesc]
    simp; omega
  | case3 token current hlt hesc hhash =>
    rw [regexpTokenScan, if_pos hlt, if_neg hesc, if_pos hhash]
    simp; omega
  | case4 token current hlt hesc hhash =>
    rw [regexpTokenScan, if_pos hlt, if_neg hesc, if_neg hhash]
    exact h
  | case5 token current hlt =>
    rw [regexpTokenScan, if_neg hlt]
    exact h
  | case6 token current next rest hlt hesc ih =>
    rw [regexpTokenScan, if_pos hlt, if_pos hesc]
    exact ih (by simp; omega)
  | case7 token current next rest hlt hesc hhash ih =>
    rw [regexpTokenScan, if_pos hlt, if_neg hesc, if_pos hhash]
    exact ih (by simp; omega)
  | case8 token current next rest hlt hesc hhash =>
    rw [regexpTokenScan, if_pos hlt, if_neg hesc, if_neg hhash]
    exact h
  | case9 token current next rest hlt =>
    rw [regexpTokenScan, if_neg hlt]
    exact h

theorem regexpTokenScan_prefix (tables : RegexTables) (maxTokenLength : Nat)
    (token source : List UInt8) : token <+: regexpTokenScan tables maxTokenLength token source := by
  induction token, source using regexpTokenScan.induct tables maxTokenLength with
  | case1 => exact List.prefix_refl _
  | case6 token current next rest hlt hesc ih =>
    rw [regexpTokenScan, if_pos hlt, if_pos hesc]
    exact (List.prefix_append _ _).trans ih
  | case7 token current next rest hlt hesc hhash ih =>
    rw [regexpTokenScan, if_pos hlt, if_neg hesc, if_pos hhash]
    exact (List.prefix_append _ _).trans ih
  | _ => rw [regexpTokenScan]; split_ifs; simp

theorem wideToken_length (string : List UInt8) (tokenLength : Nat) :
    (wideToken string tokenLength).length = tokenLength := by
  simp [wideToken]

theorem map_range_getD_eq {l : List UInt8} {k L : Nat} (h : k + L ≤ l.length) :
    (List.range L).map (fun j => l.getD (k + j) 0) = (l.drop k).take L := by
  apply List.ext_getElem?
  intro j
  by_cases hj : j < L
  · simp [hj, List.getElem?_take, List.getD_eq_getElem?_getD,
      List.getElem?_eq_getElem (by omega : k + j < l.length)]
  · simp [hj, List.getElem?_take]; omega

theorem literalTokens_length_le (isNoCase : Bool) (token : List UInt8) (r : TokenRecord)
    (h : token.length ≤ maxToken) (hr : r ∈ literalTokens isNoCase token) :
    r.token.length ≤ maxToken :=
  (literalTokens_mem isNoCase token r hr).1.symm ▸ h

theorem yrAcGenTokens_length_le (tables : RegexTables) (string : YrString) (r : TokenRecord)
    (hr : r ∈ yrAcGenTokens tables string maxToken) : r.token.length ≤ maxToken := by
  have hascii := literalTokens_length_le string.isNoCase
    (string.string.take (min string.string.length maxToken)) r
    (by rw [List.length_take]; omega)
  have hwide := literalTokens_length_le string.isNoCase
    (wideToken string.string (min (string.string.length * 2) maxToken)) r
    (by rw [wideToken_length]; omega)
  unfold yrAcGenTokens at hr
  split_ifs at hr
  · simp only [yrAcGenHexTokens, List.mem_singleton] at hr
    subst hr
    simpa using hexLoop_candidate_le _ _ _ _ (by simp [HexTokenScan.init])
  · have hscan := regexpTokenScan_length_le tables maxToken []
      (if string.string.headD 0 = '^'.toUInt8 then string.string.drop 1 else string.string)
      (by simp)
    dsimp only [yrAcGenRegexpTokens] at hr
    generalize regexpTokenScan tables maxToken [] _ = token at hr hscan
    split_ifs at hr
    · exact literalTokens_length_le _ _ r hscan hr
    · obtain ⟨b, -, rfl⟩ := List.mem_map.mp hr
      simp [maxToken]
  all_goals
    simp only [List.mem_append, List.not_mem_nil, or_false, false_or] at hr <;>
      first
      | exact hascii hr
      | exact hwide hr
      | exact hr.elim hascii hwide

theorem yrAcGenTokens_backtrack_nonneg (tables : RegexTables) (string : YrString)
    (maxTokenLength : Nat) (r : TokenRecord)
    (hr : r ∈ yrAcGenTokens tables string maxTokenLength) : 0 ≤ r.backtrack := by
  have hlit : ∀ isNoCase token, r ∈ literalTokens isNoCase token → 0 ≤ r.backtrack :=
    fun _ _ h => (literalTokens_mem _ _ r h).2.symm ▸ Int.le_refl 0
  unfold yrAcGenTokens at hr
  split_ifs at hr
  · simp only [yrAcGenHexTokens, List.mem_singleton] at hr
    subst hr
    exact hexLoop_backtrack_nonneg _ _ _ _ ⟨Int.le_refl 0, Int.le_refl 0⟩
  · dsimp only [yrAcGenRegexpTokens] at hr
    split_ifs at hr <;> first
      | exact hlit _ _ hr
      | obtain ⟨b, -, rfl⟩ := List.mem_map.mp hr; exact Int.le_refl 0
  all_goals
    simp only [List.mem_append, List.not_mem_nil, or_false, false_or] at hr <;>
      first
      | exact hlit _ _ hr
      | exact hr.elim (hlit _ _) (hlit _ _)

end YaraAhoCorasick.Tokens
