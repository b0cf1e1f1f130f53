import YaraAhoCorasick.TokenMatching

namespace YaraAhoCorasick.RegexTokens

open YaraAhoCorasick.Tokens YaraAhoCorasick.TokenMatching

theorem regexpTokenScan_takeWhile (tables : RegexTables) (m : Nat) (token source : List UInt8)
    (hesc : '\\'.toUInt8 ∉ source) :
    ∃ q, regexpTokenScan tables m token source = token ++ q ∧
      q <+: source.takeWhile tables.isregexhashable := by
  induction token, source using regexpTokenScan.induct tables m with
  | case2 token current _ hb => exact absurd (hb.1 ▸ List.mem_singleton_self _) hesc
  | case3 token current hlt hb hhash =>
    refine ⟨[current], by rw [regexpTokenScan, if_pos hlt, if_neg hb, if_pos hhash], ?_⟩
    rw [List.takeWhile_cons_of_pos hhash]
    exact List.prefix_refl _
  | case6 token current next rest _ hb _ => exact absurd (hb.1 ▸ List.mem_cons_self _ _) hesc
  | case7 token current next rest hlt hb hhash ih =>
    obtain ⟨q, hq, hpre⟩ := ih fun h => hesc (List.mem_cons_of_mem _ h)
    refine ⟨current :: q, ?_, ?_⟩
    · rw [regexpTokenScan, if_pos hlt, if_neg hb, if_pos hhash, hq, List.append_assoc,
        List.singleton_append]
    · rw [List.takeWhile_cons_of_pos hhash.1]
      exact List.cons_prefix_cons.mpr ⟨rfl, hpre⟩
  | _ => exact ⟨[], by simp [regexpTokenScan, *], List.nil_prefix⟩

/-- Tables under which no metacharacter is a literal. -/
def HashesNoMeta (tables : RegexTables) : Prop :=
  ∀ c ∈ regexMeta, tables.isregexhashable c = false

/-- `firstBytes` holds the first byte of every match of `r`, as `yr_regex_get_first_bytes` is to
return. -/
def FirstBytesOf (r : Regex) (firstBytes : List UInt8) : Prop :=
  ∀ d o o', r.Matches d o o' → ∃ b ∈ firstBytes, d.get? o = some b

theorem HashesNoMeta.group {tables : RegexTables} (hT : HashesNoMeta tables) :
    tables.isregexhashable '('.toUInt8 = false := hT _ (by decide)

theorem HashesNoMeta.dot {tables : RegexTables} (hT : HashesNoMeta tables) :
    tables.isregexhashable '.'.toUInt8 = false := hT _ (by decide)

theorem HashesNoMeta.bar {tables : RegexTables} (hT : HashesNoMeta tables) :
    tables.isregexhashable '|'.toUInt8 = false := hT _ (by decide)

theorem prefix_append_drop {d a b : List UInt8} {o : Nat} (ha : a <+: d.drop o)
    (hb : b <+: d.drop (o + a.length)) : a ++ b <+: d.drop o := by
  obtain ⟨t, ht⟩ := ha
  have hdrop : d.drop (o + a.length) = t := by
    rw [← List.drop_drop, ← ht, List.drop_left]
  rw [← ht]
  exact (List.prefix_append_right_inj a).mpr (hdrop ▸ hb)

theorem source_ne_nil : ∀ r : Regex, r.source ≠ []
  | .char _ | .any | .star _ => by simp [Regex.source]
  | .concat r _ => by
    cases h : r.isAlt <;> simp [Regex.source, parenthesize, h, source_ne_nil r]
  | .alt r _ => by simp [Regex.source, source_ne_nil r]

theorem not_mem_source {m : UInt8} (hm : m ∈ regexMeta)
    (hs : m ∉ ['('.toUInt8, ')'.toUInt8, '.'.toUInt8, '|'.toUInt8, '*'.toUInt8]) :
    ∀ {r : Regex}, r.charsLiteral = true → m ∉ r.source := by
  simp only [List.mem_cons, List.not_mem_nil, or_false, not_or] at hs
  have hpar : ∀ {g : Bool} {l : List UInt8}, m ∉ l → m ∉ parenthesize g l := fun {g} _ h => by
    cases g <;> simp [parenthesize, hs.1, hs.2.1, h]
  intro r hl
  induction r with
  | char c =>
    simp only [Regex.charsLiteral, decide_eq_true_eq] at hl
    simp only [Regex.source, List.mem_singleton]
    rintro rfl
    exact hl hm
  | any => simp [Regex.source, hs.2.2.1]
  | concat r s ihr ihs =>
    simp only [Regex.charsLiteral, Bool.and_eq_true] at hl
    simp only [Regex.source, List.mem_append, not_or]
    exact ⟨hpar (ihr hl.1), hpar (ihs hl.2)⟩
  | alt r s ihr ihs =>
    simp only [Regex.charsLiteral, Bool.and_eq_true] at hl
    simp [Regex.source, ihr hl.1, ihs hl.2, hs.2.2.2.1]
  | star r ih =>
    simp only [Regex.source, List.mem_append, not_or]
    exact ⟨hpar (ih hl), by simp [hs.2.2.2.2]⟩

theorem source_headD_ne_caret {r : Regex} (hl : r.charsLiteral = true) :
    r.source.headD 0 ≠ '^'.toUInt8 := by
  obtain ⟨c, cs, hcs⟩ := List.exists_cons_of_ne_nil (source_ne_nil r)
  rw [hcs, List.headD_cons]
  rintro rfl
  exact not_mem_source (by decide) (by decide) hl (hcs ▸ List.mem_cons_self _ _)

section Match

variable {tables : RegexTables} (hT : HashesNoMeta tables) {d : List UInt8}

theorem singleton_prefix_drop {c : UInt8} {o : Nat} (h : d.get? o = some c) : [c] <+: d.drop o := by
  rw [List.get?_eq_getElem?, List.getElem?_eq_some_iff] at h
  obtain ⟨hlt, hc⟩ := h
  rw [List.drop_eq_getElem_cons hlt, hc]
  exact ⟨_, rfl⟩

include hT

theorem takeWhile_group {g : Bool} (hg : g = true) (source rest : List UInt8) :
    (parenthesize g source ++ rest).takeWhile tables.isregexhashable = [] := by
  rw [hg, parenthesize, if_pos rfl, List.append_assoc, List.cons_append,
    List.takeWhile_cons_of_neg (by simp [hT.group])]

theorem not_group_of_all {g : Bool} {source : List UInt8}
    (h : (parenthesize g source).all tables.isregexhashable = true) : g = false := by
  cases g
  · rfl
  · simp [parenthesize, hT.group] at h

theorem matches_literal {r : Regex} {o o' : Nat} (hm : r.Matches d o o')
    (hall : r.source.all tables.isregexhashable = true) :
    r.source <+: d.drop o ∧ o' = o + r.source.length := by
  induction hm with
  | char h => exact ⟨singleton_prefix_drop h, rfl⟩
  | any => simp [Regex.source, hT.dot] at hall
  | @concat r s o o₁ o' _ _ ihr ihs =>
    simp only [Regex.source, List.all_append, Bool.and_eq_true] at hall
    have hr := not_group_of_all hT hall.1
    have hs := not_group_of_all hT hall.2
    simp only [Regex.source, hr, hs, parenthesize, Bool.false_eq_true, if_false] at hall ⊢
    obtain ⟨hpr, rfl⟩ := ihr hall.1
    obtain ⟨hps, rfl⟩ := ihs hall.2
    exact ⟨prefix_append_drop hpr hps, by rw [List.length_append, Nat.add_assoc]⟩
  | altLeft | altRight => simp [Regex.source, hT.bar] at hall
  | starNil | starCons => simp [Regex.source, parenthesize, hT.group] at hall

theorem takeWhile_prefix_of_matches {r : Regex} {o o' : Nat} (hm : r.Matches d o o')
    (hr : r.isAlt = false) : r.source.takeWhile tables.isregexhashable <+: d.drop o := by
  induction hm with
  | char h => exact (List.takeWhile_prefix _).trans (singleton_prefix_drop h)
  | any => simp [Regex.source, hT.dot]
  | @concat r s o o₁ o' hmr _ ihr ihs =>
    cases hra : r.isAlt
    case true =>
      rw [Regex.source, takeWhile_group hT hra]
      exact List.nil_prefix
    case false =>
      rw [Regex.source, hra, parenthesize, if_neg Bool.false_ne_true, List.takeWhile_append]
      split_ifs with hlen
      case neg => exact ihr hra
      case pos =>
        have hall : r.source.all tables.isregexhashable = true := by
          rw [List.all_eq_true, ← List.takeWhile_eq_self_iff]
          exact (List.takeWhile_prefix _).eq_of_length hlen
        obtain ⟨hpr, rfl⟩ := matches_literal hT hmr hall
        refine prefix_append_drop hpr ?_
        cases hsa : s.isAlt
        case false =>
          rw [parenthesize, if_neg Bool.false_ne_true]
          exact ihs hsa
        case true =>
          rw [← List.append_nil (parenthesize true s.source), takeWhile_group hT rfl]
          exact List.nil_prefix
  | altLeft | altRight => simp [Regex.isAlt] at hr
  | starNil | starCons => rw [Regex.source, takeWhile_group hT rfl]; exact List.nil_prefix

end Match

theorem regexpTokens_cases {tables : RegexTables} (hT : HashesNoMeta tables) {r : Regex}
    (hr : r.isAlt = false) (hl : r.charsLiteral = true) {string : YrString}
    (hnc : string.isNoCase = false) (hs : string.string = r.source) {d : List UInt8} {o o' : Nat}
    (hm : r.Matches d o o') (n : Nat) :
    (∃ t ≠ [], yrAcGenRegexpTokens tables string n = [⟨0, t⟩] ∧ t <+: d.drop o) ∨
      yrAcGenRegexpTokens tables string n = string.firstBytes.map fun b => ⟨0, [b]⟩ := by
  obtain ⟨q, hq, hpre⟩ := regexpTokenScan_takeWhile tables n [] r.source
    (not_mem_source (by decide) (by decide) hl)
  unfold yrAcGenRegexpTokens
  simp only [hs, if_neg (source_headD_ne_caret hl), hq, List.nil_append, literalTokens, hnc,
    Bool.false_eq_true, if_false]
  split_ifs with hpos
  · exact .inl ⟨q, List.length_pos.mp hpos, rfl, hpre.trans (takeWhile_prefix_of_matches hT hm hr)⟩
  · exact .inr rfl

/-- The regular expression `(a|b)c`, which has no literal prefix. -/
def abThenC : Regex := .concat (.alt (.char 97) (.char 98)) (.char 99)

def abThenCString : YrString := ⟨false, true, true, false, false, abThenC.source, [], [97, 98]⟩

theorem abThenC_firstBytes : FirstBytesOf abThenC abThenCString.firstBytes := by
  intro d o o' h
  cases h with
  | concat h₁ _ =>
    cases h₁ with
    | altLeft h => cases h with | char hc => exact ⟨97, by decide, hc⟩
    | altRight h => cases h with | char hc => exact ⟨98, by decide, hc⟩

example : yrAcGenTokens letterTables abThenCString maxToken = [⟨0, [97]⟩, ⟨0, [98]⟩] := rfl

end YaraAhoCorasick.RegexTokens
