import YaraAhoCorasick.CaseCombinations

namespace YaraAhoCorasick.TextTokens

open YaraAhoCorasick.Tokens YaraAhoCorasick.CaseCombinations

/-- The UTF-16LE form in which a `wide` text string is searched: each byte followed by a zero. -/
def wideForm (w : List UInt8) : List UInt8 :=
  w.flatMap fun c => [c, 0]

/-- The forms in which a text string is searched: its bytes if `ascii`, their UTF-16LE form if
`wide`. -/
def textForms (string : YrString) : List (List UInt8) :=
  (if string.isAscii then [string.string] else []) ++
    (if string.isWide then [wideForm string.string] else [])

theorem wideForm_cons (c : UInt8) (w : List UInt8) : wideForm (c :: w) = c :: 0 :: wideForm w :=
  rfl

theorem wideForm_length (w : List UInt8) : (wideForm w).length = 2 * w.length := by
  induction w with
  | nil => rfl
  | cons c w ih =>
    rw [wideForm_cons, List.length_cons, List.length_cons, ih, List.length_cons]
    omega

theorem wideForm_getD (w : List UInt8) (i : Nat) :
    (wideForm w).getD i 0 = if i % 2 = 0 then w.getD (i / 2) 0 else 0 := by
  induction w generalizing i with
  | nil => simp [wideForm]
  | cons c w ih =>
    match i with
    | 0 => rfl
    | 1 => rfl
    | i + 2 =>
      rw [wideForm_cons, List.getD_cons_succ, List.getD_cons_succ, ih, Nat.add_mod_right,
        Nat.add_div_right i two_pos, List.getD_cons_succ]

theorem wideToken_eq (w : List UInt8) {L : Nat} (h : L ≤ 2 * w.length) :
    wideToken w L = (wideForm w).take L := by
  have hwin := map_range_getD_eq (l := wideForm w) (k := 0) (L := L)
    (by rw [wideForm_length]; omega)
  simp only [Nat.zero_add, List.drop_zero] at hwin
  rw [← hwin]
  simp only [wideToken, wideForm_getD]

theorem mem_letterPositions {w : List UInt8} {i : Nat} :
    i ∈ letterPositions w ↔ i < w.length ∧ isLetter (w.getD i 0) = true := by
  simp [letterPositions]

theorem getD_take {F : List UInt8} {k i : Nat} (hi : i < k) : (F.take k).getD i 0 = F.getD i 0 := by
  simp only [List.getD_eq_getElem?_getD, List.getElem?_take, if_pos hi]

theorem letterPositions_take (F : List UInt8) (k : Nat) :
    letterPositions (F.take k) ⊆ letterPositions F := by
  intro i hi
  obtain ⟨hlt, hl⟩ := mem_letterPositions.mp hi
  rw [List.length_take, Nat.lt_min] at hlt
  exact mem_letterPositions.mpr ⟨hlt.2, getD_take hlt.1 ▸ hl⟩

theorem toggleCase_congr {w : List UInt8} {S S' : List Nat}
    (h : ∀ i < w.length, i ∈ S ↔ i ∈ S') :
    toggleCase w S = toggleCase w S' := by
  apply List.ext_getElem (by simp [toggleCase])
  intro i h₁ _
  simp [toggleCase, h i (by simpa [toggleCase] using h₁)]

theorem toggleCase_take (w : List UInt8) (S : List Nat) (k : Nat) :
    toggleCase (w.take k) S = (toggleCase w S).take k := by
  apply List.ext_getElem (by simp [toggleCase])
  intro i _ _
  simp [toggleCase]

theorem literalTokens_complete (isNoCase : Bool) (F : List UInt8) (k : Nat) {S : List Nat}
    (hS : S ⊆ letterPositions F) (hcase : isNoCase = false → S = []) {d : List UInt8} {o : Nat}
    (hocc : toggleCase F S <+: d.drop o) :
    ∃ r ∈ literalTokens isNoCase (F.take k), r.backtrack = 0 ∧ r.token <+: d.drop o := by
  set t := F.take k
  set S' := (letterPositions t).filter fun i => decide (i ∈ S)
  have hS' : toggleCase t S' = toggleCase t S := toggleCase_congr fun i hi => by
    have hiF : t.getD i 0 = F.getD i 0 :=
      getD_take (by simp only [t, List.length_take] at hi; omega)
    simp only [S', List.mem_filter, decide_eq_true_eq, mem_letterPositions, hiF]
    exact ⟨fun h => h.2, fun h => ⟨⟨hi, (mem_letterPositions.mp (hS h)).2⟩, h⟩⟩
  have hpre : toggleCase t S' <+: d.drop o := by
    rw [hS', toggleCase_take]
    exact (List.take_prefix k _).trans hocc
  by_cases hnil : S' = []
  · exact ⟨⟨0, t⟩, List.mem_cons_self _ _, rfl, by rwa [hnil, toggleCase_nil] at hpre⟩
  · have hnc : isNoCase = true := by
      cases isNoCase
      · exact absurd (by simp [S', hcase rfl]) hnil
      · rfl
    obtain ⟨i, hi⟩ := List.exists_mem_of_ne_nil S' hnil
    have hpos : 0 < t.length :=
      lt_of_le_of_lt (Nat.zero_le i) (mem_letterPositions.mp (List.mem_of_mem_filter hi)).1
    have hmem : toggleCase t S' ∈
        ((letterPositions t).sublists'.filter (· ≠ [])).map (toggleCase t) :=
      List.mem_map.mpr ⟨S', List.mem_filter.mpr
        ⟨List.mem_sublists'.mpr (List.filter_sublist _), by simpa using hnil⟩, rfl⟩
    obtain ⟨r, hr, htok⟩ :=
      List.mem_map.mp ((caseCombinations_variants t 0 hpos).mem_iff.mpr hmem)
    have hlit : r ∈ literalTokens isNoCase t := by
      rw [literalTokens, hnc, if_pos rfl]
      exact List.mem_cons_of_mem _ hr
    exact ⟨r, hlit, (literalTokens_mem _ _ r hlit).2, htok ▸ hpre⟩

theorem mem_genTokens_text (tables : RegexTables) (string : YrString) (n : Nat)
    (hhex : string.isHex = false) (hre : string.isRegexp = false) (r : TokenRecord) :
    r ∈ yrAcGenTokens tables string n ↔
      ∃ w ∈ textForms string, r ∈ literalTokens string.isNoCase (w.take (min w.length n)) := by
  rw [yrAcGenTokens, if_neg (by simp [hhex]), if_neg (by simp [hre]), wideToken_eq _ (by omega),
    textForms, Nat.mul_comm _ 2]
  cases string.isAscii <;> cases string.isWide <;> simp [wideForm_length]

theorem textToken_length (tables : RegexTables) (string : YrString) (n : Nat)
    (hhex : string.isHex = false) (hre : string.isRegexp = false) :
    ∀ r ∈ yrAcGenTokens tables string n, r.token.length = min string.string.length n ∨
      r.token.length = min (string.string.length * 2) n := by
  intro r hr
  rw [yrAcGenTokens, if_neg (by simp [hhex]), if_neg (by simp [hre]), List.mem_append] at hr
  rcases hr with hr | hr
  · split_ifs at hr
    · left
      rw [(literalTokens_mem _ _ r hr).1, List.length_take]
      omega
    · exact absurd hr (List.not_mem_nil r)
  · split_ifs at hr
    · exact .inr (by rw [(literalTokens_mem _ _ r hr).1, wideToken_length])
    · exact absurd hr (List.not_mem_nil r)

/-- `_yr_ac_gen_tokens` misses no occurrence of a text string: wherever a form it is searched in
occurs in `d` at `o`, a record has backtrack zero and a token `d` holds there. -/
theorem gen_tokens_text_complete (tables : RegexTables) (string : YrString) (n : Nat)
    (hhex : string.isHex = false) (hre : string.isRegexp = false)
    {w : List UInt8} (hw : w ∈ textForms string) {S : List Nat} (hS : S ⊆ letterPositions w)
    (hcase : string.isNoCase = false → S = []) {d : List UInt8} {o : Nat}
    (hocc : toggleCase w S <+: d.drop o) :
    ∃ r ∈ yrAcGenTokens tables string n, r.backtrack = 0 ∧ r.token <+: d.drop o := by
  obtain ⟨r, hr, h⟩ := literalTokens_complete string.isNoCase w (min w.length n) hS hcase hocc
  exact ⟨r, (mem_genTokens_text tables string n hhex hre r).mpr ⟨w, hw, hr⟩, h⟩

def abNoCase : YrString := ⟨false, false, true, false, true, [97, 98], [], []⟩

theorem gen_tokens_text_complete_ab :
    abNoCase.isHex = false ∧ abNoCase.isRegexp = false ∧ [97, 98] ∈ textForms abNoCase ∧
      [0] ⊆ letterPositions [97, 98] ∧ (abNoCase.isNoCase = false → [0] = []) ∧
      toggleCase [97, 98] [0] <+: ([65, 98] : List UInt8).drop 0 ∧
      ∃ r ∈ yrAcGenTokens ⟨fun _ => false, fun _ => false⟩ abNoCase maxToken,
        r.backtrack = 0 ∧ r.token <+: ([65, 98] : List UInt8).drop 0 :=
  have hS : [0] ⊆ letterPositions [97, 98] := by decide
  have hocc : toggleCase [97, 98] [0] <+: ([65, 98] : List UInt8).drop 0 := by decide
  ⟨rfl, rfl, by decide, hS, by decide, hocc,
    gen_tokens_text_complete _ abNoCase maxToken rfl rfl (by decide) hS (by decide) hocc⟩

theorem literalTokens_sound (isNoCase : Bool) (t : List UInt8) :
    ∀ r ∈ literalTokens isNoCase t, r.backtrack = 0 ∧
      ∃ S ⊆ letterPositions t, (isNoCase = false → S = []) ∧ r.token = toggleCase t S := by
  intro r hr
  refine ⟨(literalTokens_mem _ _ r hr).2, ?_⟩
  rw [literalTokens, List.mem_cons] at hr
  rcases hr with rfl | hr
  · exact ⟨[], List.nil_subset _, fun _ => rfl, (toggleCase_nil t).symm⟩
  cases isNoCase
  case false => exact absurd hr (List.not_mem_nil r)
  case true =>
    rw [if_pos rfl] at hr
    cases t with
    | nil => exact absurd hr (List.not_mem_nil r)
    | cons c t =>
      obtain ⟨S, hS, htok⟩ := List.mem_map.mp
        ((caseCombinations_variants (c :: t) 0 (Nat.succ_pos _)).subset (List.mem_map_of_mem _ hr))
      exact ⟨S, (List.mem_sublists'.mp (List.mem_filter.mp hS).1).subset, nofun, htok.symm⟩

theorem literalTokens_take_sound (isNoCase : Bool) (F : List UInt8) (k : Nat) :
    ∀ r ∈ literalTokens isNoCase (F.take k), r.backtrack = 0 ∧ ∃ S ⊆ letterPositions F,
      (isNoCase = false → S = []) ∧ r.token <+: toggleCase F S := by
  intro r hr
  obtain ⟨hb, S, hS, hc, htok⟩ := literalTokens_sound isNoCase _ r hr
  refine ⟨hb, S, hS.trans (letterPositions_take F k), hc, ?_⟩
  rw [htok, toggleCase_take]
  exact List.take_prefix k _

/-- Every record `_yr_ac_gen_tokens` writes for a text string has backtrack zero and a token
beginning one of its forms, letters toggled only if it is `nocase`. -/
theorem gen_tokens_text_sound (tables : RegexTables) (string : YrString) (n : Nat)
    (hhex : string.isHex = false) (hre : string.isRegexp = false) :
    ∀ r ∈ yrAcGenTokens tables string n, r.backtrack = 0 ∧ ∃ w ∈ textForms string,
      ∃ S ⊆ letterPositions w, (string.isNoCase = false → S = []) ∧
        r.token <+: toggleCase w S := by
  intro r hr
  obtain ⟨w, hw, hr⟩ := (mem_genTokens_text tables string n hhex hre r).mp hr
  exact (literalTokens_take_sound _ w _ r hr).imp_right fun h => ⟨w, hw, h⟩

theorem gen_tokens_text_sound_ab :
    abNoCase.isHex = false ∧ abNoCase.isRegexp = false ∧
      ∀ r ∈ yrAcGenTokens ⟨fun _ => false, fun _ => false⟩ abNoCase maxToken,
        r.backtrack = 0 ∧ ∃ w ∈ textForms abNoCase, ∃ S ⊆ letterPositions w,
          (abNoCase.isNoCase = false → S = []) ∧ r.token <+: toggleCase w S :=
  ⟨rfl, rfl, gen_tokens_text_sound _ abNoCase maxToken rfl rfl⟩

end YaraAhoCorasick.TextTokens
