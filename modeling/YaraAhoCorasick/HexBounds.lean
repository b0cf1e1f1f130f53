import YaraAhoCorasick.HexSoundness

namespace YaraAhoCorasick.HexBounds

open YaraAhoCorasick.Tokens YaraAhoCorasick.TokenMatching YaraAhoCorasick.HexSoundness

/-- The bytes of `string` a mask element stands for: one for a significant literal or a masked
wildcard, none for the sentinels. -/
def byteCount : MaskElem → Nat
  | .literal | .wildcard _ => 1
  | _ => 0

/-- The window starts in `string` and ends within its first `c` bytes. -/
def WindowWithin (cand : Candidate) (c : Nat) : Prop :=
  0 ≤ cand.position ∧ cand.position.toNat + cand.length ≤ c

theorem WindowWithin.mono {cand : Candidate} {c c' : Nat} (h : WindowWithin cand c)
    (hc : c ≤ c') :
    WindowWithin cand c' :=
  ⟨h.1, h.2.trans hc⟩

/-- Between two iterations, once the elements read stand for `c` bytes: the run ends at
`stringPosition`, which is at most `c`, and the candidate window lies in the first `c` bytes. -/
structure InBounds (c : Nat) (l : Locals) : Prop where
  run_le : l.tokenLength ≤ l.stringPosition
  position_le : l.stringPosition ≤ c
  window : WindowWithin l.candidate c

variable {string : List UInt8} {n c : Nat} {s : HexTokenScan}

theorem InBounds.cut {l l' : Locals} (h : InBounds c l) (k : Nat) (htl : l'.tokenLength = 0)
    (hsp : l'.stringPosition = l.stringPosition + k) (hc : l'.candidate = l.candidate) :
    InBounds (c + k) l' :=
  ⟨htl ▸ Nat.zero_le _, by have := h.position_le; omega,
    hc ▸ h.window.mono (Nat.le_add_right _ _)⟩

theorem InBounds.literal (h : InBounds c (locals s)) (hor : s.insideOr = false) :
    WindowWithin (locals (hexStep string n s .literal).1).candidate (c + 1) ∧
      ((hexStep string n s .literal).2 = true →
        InBounds (c + 1) (locals (hexStep string n s .literal).1)) := by
  obtain ⟨cand, hc, heq⟩ := hexStep_literal string n hor
  have hr : s.tokenLength ≤ s.stringPosition := h.run_le
  have hp : s.stringPosition ≤ c := h.position_le
  have hw : WindowWithin cand (c + 1) := by
    rcases hc with rfl | rfl
    · exact h.window.mono (Nat.le_succ c)
    · exact ⟨by simp only; omega, by simp only; omega⟩
  cases hgo : (hexStep string n s .literal).2
  · simp only [hgo, Bool.false_eq_true, if_false] at heq
    exact ⟨by rw [heq]; exact hw, fun h => absurd h Bool.false_ne_true⟩
  · simp only [hgo, if_true] at heq
    exact ⟨by rw [heq]; exact hw, fun _ => by
      rw [heq]; exact ⟨by simp only; omega, by simp only; omega, hw⟩⟩

theorem hexStep_inBounds (string : List UInt8) (n : Nat) (h : InBounds c (locals s))
    (e : MaskElem) :
    WindowWithin (locals (hexStep string n s e).1).candidate (c + byteCount e) ∧
      ((hexStep string n s e).2 = true →
        InBounds (c + byteCount e) (locals (hexStep string n s e).1)) := by
  have keep : ∀ {k l}, InBounds (c + k) l → WindowWithin l.candidate (c + k) ∧
      ((hexStep string n s e).2 = true → InBounds (c + k) l) :=
    fun h' => ⟨h'.window, fun _ => h'⟩
  cases e with
  | literal =>
    cases hor : s.insideOr
    · exact h.literal hor
    · rw [(hexStep_inside string n (.inl rfl) hor).2]
      exact keep (h.cut 1 rfl rfl rfl)
  | wildcard m =>
    cases hor : s.insideOr
    · rw [(hexStep_wildcard string n m hor).2]
      exact keep (h.cut 1 rfl rfl rfl)
    · rw [(hexStep_inside string n (.inr ⟨m, rfl⟩) hor).2]
      exact keep (h.cut 1 rfl rfl rfl)
  | maskOr =>
    rw [(hexStep_maskOr string n).2]
    exact keep (h.cut 0 rfl rfl rfl)
  | maskOrEnd =>
    rw [(hexStep_maskOrEnd string n).2]
    split_ifs <;> exact keep (h.cut 0 rfl rfl rfl)
  | maskExactSkip count =>
    rw [(hexStep_exactSkip string n count).2]
    exact keep (h.cut 0 rfl rfl rfl)
  | maskRangeSkip =>
    rw [(hexStep_rangeSkip string n).2]
    exact keep (h.cut 0 rfl rfl rfl)

theorem hexLoop_inBounds (string : List UInt8) (n : Nat) :
    ∀ (es : List MaskElem) (s : HexTokenScan) (c : Nat), InBounds c (locals s) →
      WindowWithin (locals (hexLoop string n es s)).candidate (c + (es.map byteCount).sum)
  | [], _, _, h => h.window
  | e :: es, s, c, h => by
    obtain ⟨hw, hnext⟩ := hexStep_inBounds string n h e
    rw [List.map_cons, List.sum_cons, ← Nat.add_assoc]
    cases hgo : (hexStep string n s e).2
    · rw [hexLoop_cons_stop hgo]
      exact hw.mono (Nat.le_add_right _ _)
    · rw [hexLoop_cons_continue hgo]
      exact hexLoop_inBounds string n es _ _ (hnext hgo)

/-- The `memcpy` of `_yr_ac_gen_hex_tokens` reads inside `string` when the mask's byte elements do
not outnumber its bytes: the window lies in `string`, and the token is its bytes. -/
theorem gen_hex_tokens_within_string (string : YrString)
    (h : (string.mask.map byteCount).sum ≤ string.string.length) :
    ∀ n, 1 ≤ n → n ≤ maxToken →
      0 ≤ (hexLoop string.string n string.mask HexTokenScan.init).candidateTokenPosition ∧
      (hexLoop string.string n string.mask HexTokenScan.init).candidateTokenPosition.toNat +
          (hexLoop string.string n string.mask HexTokenScan.init).candidateTokenLength ≤
        string.string.length ∧
      yrAcGenHexTokens string n =
        [⟨(hexLoop string.string n string.mask HexTokenScan.init).candidateTokenBacktrack,
          (string.string.drop
              (hexLoop string.string n string.mask HexTokenScan.init).candidateTokenPosition.toNat).take
            (hexLoop string.string n string.mask HexTokenScan.init).candidateTokenLength⟩] := by
  intro n _ _
  set s := hexLoop string.string n string.mask HexTokenScan.init
  have hw : WindowWithin (locals s).candidate (0 + (string.mask.map byteCount).sum) :=
    hexLoop_inBounds string.string n string.mask HexTokenScan.init 0
      ⟨le_rfl, le_rfl, le_rfl, le_rfl⟩
  have hlen : s.candidateTokenPosition.toNat + s.candidateTokenLength ≤ string.string.length :=
    hw.2.trans (by omega)
  exact ⟨hw.1, hlen, by rw [yrAcGenHexTokens, map_range_getD_eq hlen]⟩

theorem gen_hex_tokens_within_string_skipAlternation :
    ((hexString skipAlternation).mask.map byteCount).sum ≤
        (hexString skipAlternation).string.length ∧ 1 ≤ maxToken ∧
      0 ≤ (hexLoop (hexString skipAlternation).string maxToken (hexString skipAlternation).mask
          HexTokenScan.init).candidateTokenPosition :=
  have h := gen_hex_tokens_within_string (hexString skipAlternation) (by decide) maxToken
    (by decide) le_rfl
  ⟨by decide, by decide, h.1⟩

end YaraAhoCorasick.HexBounds
