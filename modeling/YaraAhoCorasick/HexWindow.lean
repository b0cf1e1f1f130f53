import Mathlib.Data.Finset.Card
import YaraAhoCorasick.Tokens

namespace YaraAhoCorasick.HexWindow

open YaraAhoCorasick.Tokens

/-- The iterations of the `while` loop of `_yr_ac_gen_hex_tokens` from the locals `s`: for
each, the locals when it starts and the mask element it reads. -/
def hexIterations (string : List UInt8) (maxTokenLength : Nat) :
    List MaskElem → HexTokenScan → List (HexTokenScan × MaskElem)
  | [], _ => []
  | e :: es, s => (s, e) :: match hexStep string maxTokenLength s e with
    | (s, true) => hexIterations string maxTokenLength es s
    | (_, false) => []

def afterLiteral (string : List UInt8) (maxTokenLength : Nat) (s : HexTokenScan) :
    HexTokenScan :=
  (hexLiteral string maxTokenLength (hexPrepare string s .literal)).1

def hexWindow (string : List UInt8) (s : HexTokenScan) : List UInt8 :=
  (List.range s.tokenLength).map fun j => string.getD (s.stringPosition + 1 - s.tokenLength + j) 0

/-- The windows the scan examines before it stops: one at each significant literal outside an
alternation. -/
def hexWindows (string : List UInt8) (maxTokenLength : Nat) (mask : List MaskElem) :
    List (List UInt8) :=
  (hexIterations string maxTokenLength mask HexTokenScan.init).filterMap fun x =>
    if x.2 = .literal ∧ x.1.insideOr = false then
      some (hexWindow string (afterLiteral string maxTokenLength x.1))
    else none

theorem filter_last_occurrence (n : Nat) (last : Nat → UInt8) :
    ∀ m a, a + m = n →
      ((List.range' a m).filter fun i =>
          (List.range n).all fun j => j ≤ i || last i != last j).length =
        ((List.range' a m).map last).dedup.length
  | 0, _, _ => rfl
  | m + 1, a, h => by
    have hg : ((List.range n).all fun j => j ≤ a || last a != last j) = true ↔
        last a ∉ (List.range' (a + 1) m).map last := by
      simp only [List.all_eq_true, List.mem_range, Bool.or_eq_true, decide_eq_true_eq,
        bne_iff_ne, ne_eq, List.mem_map, List.mem_range'_1, not_exists, not_and]
      constructor
      · intro hj j hj₁ heq
        exact ((hj j (by omega)).resolve_left (by omega)) heq.symm
      · intro hj j hjn
        by_cases hja : j ≤ a
        · exact .inl hja
        · exact .inr fun heq => hj j ⟨by omega, by omega⟩ heq.symm
    rw [List.range'_succ, List.filter_cons, List.map_cons]
    by_cases hm : last a ∈ (List.range' (a + 1) m).map last
    · rw [if_neg (by rw [hg]; exact not_not.mpr hm), List.dedup_cons_of_mem hm]
      exact filter_last_occurrence n last m (a + 1) (by omega)
    · rw [if_pos (hg.mpr hm), List.dedup_cons_of_not_mem hm, List.length_cons, List.length_cons,
        filter_last_occurrence n last m (a + 1) (by omega)]

theorem uniqueCount_eq_card (n : Nat) (hn : 0 < n) (last : Nat → UInt8) :
    uniqueCount n last = ((List.range n).map last).toFinset.card := by
  obtain ⟨m, rfl⟩ : ∃ m, n = m + 1 := ⟨n - 1, by omega⟩
  rw [List.card_toFinset, List.range_eq_range',
    ← filter_last_occurrence (m + 1) last (m + 1) 0 (by omega), List.range'_concat,
    List.filter_append, List.length_append, uniqueCount, Nat.add_sub_cancel,
    List.range_eq_range', List.range_eq_range', List.filter_singleton, Nat.add_comm]
  have hlast : ((List.range' 0 (m + 1)).all fun j => decide (j ≤ m) || last m != last j) = true := by
    simp only [List.all_eq_true, List.mem_range'_1]
    intro j hj
    simp [show j ≤ m by omega]
  simp [hlast]

/-- Slot `p % n` of `last` holds the byte at `p` for each `p` of the `len` bytes from `lo`; a slot
that no position uses holds the window's first byte. -/
def SlotsHold (string : List UInt8) (n : Nat) (last : Nat → UInt8) (lo len : Nat) : Prop :=
  (∀ p, lo ≤ p → p < lo + len → last (p % n) = string.getD p 0) ∧
    (0 < len → ∀ k < n, (∀ p, lo ≤ p → p < lo + len → p % n ≠ k) → last k = string.getD lo 0)

section Slots

variable {string : List UInt8} {n : Nat} {last : Nat → UInt8} {lo len : Nat}

theorem mod_ne_of_lt {p q : Nat} (hpq : p < q) (hq : q < p + n) : p % n ≠ q % n := fun h => by
  have hd : n ∣ q - p := Nat.dvd_of_mod_eq_zero (Nat.sub_mod_eq_zero_of_mod_eq h.symm)
  have := Nat.le_of_dvd (by omega) hd
  omega

theorem exists_mod_eq (hn : 0 < n) (lo : Nat) {k : Nat} (hk : k < n) :
    ∃ p, lo ≤ p ∧ p < lo + n ∧ p % n = k := by
  have hr := Nat.mod_lt lo hn
  have hmod := Nat.mod_lt (k + n - lo % n) hn
  refine ⟨lo + (k + n - lo % n) % n, by omega, by omega, ?_⟩
  have hsum : lo + (k + n - lo % n) = k + n * (lo / n + 1) := by
    have := Nat.mod_add_div lo n
    rw [Nat.mul_add, Nat.mul_one]
    omega
  rw [Nat.add_mod_mod, hsum, Nat.add_mul_mod_self_left, Nat.mod_eq_of_lt hk]

theorem SlotsHold.toFinset (h : SlotsHold string n last lo len) (hpos : 0 < len) (hle : len ≤ n) :
    ((List.range n).map last).toFinset =
      ((List.range len).map fun j => string.getD (lo + j) 0).toFinset := by
  ext v
  simp only [List.mem_toFinset, List.mem_map, List.mem_range]
  constructor
  · rintro ⟨k, hk, rfl⟩
    by_cases hused : ∃ p, lo ≤ p ∧ p < lo + len ∧ p % n = k
    · obtain ⟨p, hp₁, hp₂, rfl⟩ := hused
      exact ⟨p - lo, by omega, by rw [h.1 p hp₁ hp₂, Nat.add_sub_cancel' hp₁]⟩
    · push_neg at hused
      exact ⟨0, hpos, by rw [h.2 hpos k hk hused, Nat.add_zero]⟩
  · rintro ⟨j, hj, rfl⟩
    exact ⟨(lo + j) % n, Nat.mod_lt _ (by omega), h.1 (lo + j) (by omega) (by omega)⟩

theorem SlotsHold.push (h : SlotsHold string n last lo len) (hn : 0 < n) (hle : len ≤ n) :
    SlotsHold string n
      (Function.update (if len = 0 then fun _ => string.getD (lo + len) 0 else last)
        ((lo + len) % n) (string.getD (lo + len) 0))
      (lo + len + 1 - min (len + 1) n) (min (len + 1) n) := by
  constructor
  · intro p hp₁ hp₂
    by_cases hpe : p = lo + len
    · rw [hpe, Function.update_same]
    have hlen : len ≠ 0 := by omega
    rw [Function.update_noteq (mod_ne_of_lt (by omega) (by omega)), if_neg hlen]
    exact h.1 p (by omega) (by omega)
  · intro _ k hk hfree
    have hk' : k ≠ (lo + len) % n := fun hke => hfree (lo + len) (by omega) (by omega) hke.symm
    rw [Function.update_noteq hk']
    split_ifs with hlen
    · show string.getD (lo + len) 0 = string.getD (lo + len + 1 - min (len + 1) n) 0
      rw [show lo + len + 1 - min (len + 1) n = lo + len by omega]
    by_cases hfull : len + 1 ≤ n
    · rw [min_eq_left hfull, show lo + len + 1 - (len + 1) = lo by omega]
      exact h.2 (by omega) k hk fun p hp₁ hp₂ => hfree p (by omega) (by omega)
    · obtain ⟨p, hp₁, hp₂, hp⟩ := exists_mod_eq hn (lo + len + 1 - n) hk
      exact absurd hp (hfree p (by omega) (by omega))

end Slots

def readOf (x : HexTokenScan × MaskElem) : Nat × MaskElem × Bool :=
  (x.1.stringPosition, x.2, x.1.insideOr)

/-- At the start of an iteration after `H`: the run of `tokenLength` literals ends before
`stringPosition`, `last` holds it, and the last iterations read its literals. -/
structure RunInv (string : List UInt8) (n : Nat) (H : List (HexTokenScan × MaskElem))
    (s : HexTokenScan) : Prop where
  le_max : s.tokenLength ≤ n
  le_pos : s.tokenLength ≤ s.stringPosition
  slots : SlotsHold string n s.last (s.stringPosition - s.tokenLength) s.tokenLength
  reads : ∀ j < s.tokenLength,
    (H.reverse[j]?).map readOf = some (s.stringPosition - 1 - j, .literal, false)

theorem runInv_init (string : List UInt8) (n : Nat) : RunInv string n [] HexTokenScan.init :=
  ⟨Nat.zero_le _, le_rfl, ⟨fun _ _ h => absurd h (by simp [HexTokenScan.init]),
    fun h => absurd h (by simp [HexTokenScan.init])⟩, fun _ h => absurd h (by simp [HexTokenScan.init])⟩

theorem hexPrepare_literal (string : List UInt8) (s : HexTokenScan) :
    hexPrepare string s .literal =
      if s.tokenLength = 0 then { s with last := fun _ => string.getD s.stringPosition 0 } else s := by
  unfold hexPrepare
  split_ifs <;> simp_all

theorem hexLiteral_fst (string : List UInt8) (n : Nat) (s : HexTokenScan) :
    (hexLiteral string n s).1.tokenLength = min (s.tokenLength + 1) n ∧
      (hexLiteral string n s).1.last = Function.update s.last (s.stringPosition % n)
        (string.getD s.stringPosition 0) ∧
      (hexLiteral string n s).1.uniqueBytes = uniqueCount n (hexLiteral string n s).1.last ∧
      (hexLiteral string n s).1.stringPosition = s.stringPosition ∧
      (hexLiteral string n s).1.insideOr = s.insideOr := by
  dsimp only [hexLiteral]
  split_ifs <;> exact ⟨rfl, rfl, rfl, rfl, rfl⟩

theorem RunInv.afterLiteral_slots {H : List (HexTokenScan × MaskElem)} {string : List UInt8} {n : Nat}
    {s : HexTokenScan} (h : RunInv string n H s) (hn : 0 < n) :
    SlotsHold string n (afterLiteral string n s).last
        ((afterLiteral string n s).stringPosition + 1 - (afterLiteral string n s).tokenLength)
        (afterLiteral string n s).tokenLength ∧
      (afterLiteral string n s).tokenLength = min (s.tokenLength + 1) n ∧
      (afterLiteral string n s).stringPosition = s.stringPosition ∧
      (afterLiteral string n s).insideOr = s.insideOr := by
  obtain ⟨htl, hlast, -, hpos, hor⟩ := hexLiteral_fst string n (hexPrepare string s .literal)
  have hprep : (hexPrepare string s .literal).tokenLength = s.tokenLength ∧
      (hexPrepare string s .literal).stringPosition = s.stringPosition ∧
      (hexPrepare string s .literal).insideOr = s.insideOr ∧
      (hexPrepare string s .literal).last =
        if s.tokenLength = 0 then fun _ => string.getD s.stringPosition 0 else s.last := by
    rw [hexPrepare_literal]
    split_ifs <;> exact ⟨rfl, rfl, rfl, rfl⟩
  have hlo : s.stringPosition - s.tokenLength + s.tokenLength = s.stringPosition :=
    Nat.sub_add_cancel h.le_pos
  have hpush := h.slots.push hn h.le_max
  rw [hlo] at hpush
  refine ⟨?_, by rw [afterLiteral, htl, hprep.1], by rw [afterLiteral, hpos, hprep.2.1],
    by rw [afterLiteral, hor, hprep.2.2.1]⟩
  rw [afterLiteral, htl, hlast, hpos, hprep.1, hprep.2.1, hprep.2.2.2]
  exact hpush

theorem hexAdvance_literal (s : HexTokenScan) (hor : s.insideOr = false) :
    hexAdvance .literal s =
      ({ s with stringPosition := s.stringPosition + 1, backtrack := s.backtrack + 1 }, true) := by
  simp [hexAdvance, isSkipOrOr, hor]

theorem RunInv.step {H : List (HexTokenScan × MaskElem)} {string : List UInt8} {n : Nat}
    {s s' : HexTokenScan} {e : MaskElem} (h : RunInv string n H s) (hn : 0 < n)
    (hstep : hexStep string n s e = (s', true)) : RunInv string n (H ++ [(s, e)]) s' := by
  by_cases hlit : e = .literal ∧ s.insideOr = false
  · obtain ⟨rfl, hor⟩ := hlit
    obtain ⟨hslots, htl, hpos, hor'⟩ := h.afterLiteral_slots hn
    have hin : (hexPrepare string s .literal).insideOr = false := by
      rw [hexPrepare_literal]; split_ifs <;> exact hor
    dsimp only [hexStep] at hstep
    rw [if_pos ⟨rfl, hin⟩] at hstep
    generalize hr : hexLiteral string n (hexPrepare string s .literal) = r at hstep
    obtain ⟨s₂, _ | _⟩ := r <;> simp only at hstep
    · cases hstep
    have hs₂ : s₂ = afterLiteral string n s := by rw [afterLiteral, hr]
    subst hs₂
    rw [hexAdvance_literal _ (hor'.trans hor), Prod.mk.injEq] at hstep
    obtain ⟨rfl, -⟩ := hstep
    have hle := h.le_pos
    refine ⟨by simp only [htl]; omega, by simp only [htl, hpos]; omega, ?_, fun j hj => ?_⟩
    · exact hslots
    · simp only [List.reverse_append, List.reverse_singleton, List.singleton_append] at hj ⊢
      rcases j with _ | j
      · simp only [List.getElem?_cons_zero, Option.map_some', readOf, hpos, hor, Nat.add_sub_cancel,
          Nat.sub_zero]
      · rw [List.getElem?_cons_succ, h.reads j (by simp only [htl] at hj; omega), hpos,
          Nat.add_sub_cancel, Nat.sub_sub, Nat.add_comm 1 j]
  · have hend : s'.tokenLength = 0 := by
      have hcond : ¬ (e = .literal ∧ (hexPrepare string s e).insideOr = false) := by
        rintro ⟨rfl, h'⟩
        exact hlit ⟨rfl, by rw [hexPrepare_literal] at h'; split_ifs at h' <;> exact h'⟩
      dsimp only [hexStep] at hstep
      rw [if_neg hcond] at hstep
      have h0 := (hexAdvance_backtrack e { hexPrepare string s e with tokenLength := 0 }).2.1
      rw [hstep] at h0
      exact h0
    refine ⟨by omega, by omega, ⟨fun p hp₁ hp₂ => by omega, fun hpos => by omega⟩,
      fun j hj => by omega⟩

theorem RunInv.iterations {string : List UInt8} {n : Nat} (hn : 0 < n) :
    ∀ (mask : List MaskElem) (H : List (HexTokenScan × MaskElem)) (s : HexTokenScan),
      RunInv string n H s → ∀ pre x post, hexIterations string n mask s = pre ++ x :: post →
        RunInv string n (H ++ pre) x.1
  | [], _, _, _, pre, x, post, hit => by simp [hexIterations] at hit
  | e :: es, H, s, h, pre, x, post, hit => by
    rcases pre with _ | ⟨y, pre⟩
    · simp only [hexIterations, List.nil_append, List.cons.injEq] at hit
      rw [← hit.1, List.append_nil]
      exact h
    simp only [hexIterations, List.cons_append, List.cons.injEq] at hit
    obtain ⟨rfl, hrest⟩ := hit
    rcases hstep : hexStep string n s e with ⟨s', _ | _⟩ <;> rw [hstep] at hrest
    · simp at hrest
    have := RunInv.iterations hn es (H ++ [(s, e)]) s' (h.step hn hstep) pre x post hrest
    simpa using this

/-- At each significant literal outside an alternation, the `unique_bytes` of
`_yr_ac_gen_hex_tokens` is the number of distinct bytes of the window just read. -/
theorem gen_hex_tokens_unique_bytes_window (string : YrString)
    (pre post : List (HexTokenScan × MaskElem)) (s : HexTokenScan)
    (hit : hexIterations string.string maxToken string.mask HexTokenScan.init =
      pre ++ (s, .literal) :: post)
    (hor : s.insideOr = false) :
    (afterLiteral string.string maxToken s).uniqueBytes =
        (hexWindow string.string (afterLiteral string.string maxToken s)).toFinset.card ∧
      ∀ j < (afterLiteral string.string maxToken s).tokenLength,
        ((pre ++ [(s, MaskElem.literal)]).reverse[j]?).map readOf =
          some ((afterLiteral string.string maxToken s).stringPosition - j, .literal, false) := by
  have hn : 0 < maxToken := by decide
  have h : RunInv string.string maxToken pre s := by
    simpa using RunInv.iterations hn string.mask [] HexTokenScan.init (runInv_init _ _) pre _ post hit
  obtain ⟨hslots, htl, hpos, -⟩ := h.afterLiteral_slots hn
  have hle : (afterLiteral string.string maxToken s).tokenLength ≤ maxToken := by omega
  refine ⟨?_, fun j hj => ?_⟩
  · rw [afterLiteral, (hexLiteral_fst _ _ _).2.2.1, ← afterLiteral, uniqueCount_eq_card _ hn,
      hslots.toFinset (by omega) hle]
    rfl
  · rw [List.reverse_append, List.reverse_singleton, List.singleton_append]
    rcases j with _ | j
    · simp [readOf, hor, hpos]
    · rw [List.getElem?_cons_succ, h.reads j (by omega), hpos, Nat.sub_sub, Nat.add_comm 1 j]

/-- `98 56 ?? 00 00 00`: a run of two distinct bytes, a wildcard, then a longer run of one
byte. -/
def variedThenFlat : YrString :=
  ⟨true, false, false, false, false, [0x98, 0x56, 0, 0, 0, 0],
    [.literal, .literal, .wildcard 0, .literal, .literal, .literal], []⟩

theorem gen_hex_tokens_unique_bytes_window_varied :
    hexIterations variedThenFlat.string maxToken variedThenFlat.mask HexTokenScan.init =
        [(HexTokenScan.init, .literal)] ++
          ((hexStep variedThenFlat.string maxToken HexTokenScan.init .literal).1, .literal) ::
          (hexIterations variedThenFlat.string maxToken variedThenFlat.mask HexTokenScan.init).drop 2 ∧
      (hexStep variedThenFlat.string maxToken HexTokenScan.init .literal).1.insideOr = false ∧
      (afterLiteral variedThenFlat.string maxToken
          (hexStep variedThenFlat.string maxToken HexTokenScan.init .literal).1).uniqueBytes =
        (hexWindow variedThenFlat.string (afterLiteral variedThenFlat.string maxToken
          (hexStep variedThenFlat.string maxToken HexTokenScan.init .literal).1)).toFinset.card ∧
      ∀ j < (afterLiteral variedThenFlat.string maxToken
          (hexStep variedThenFlat.string maxToken HexTokenScan.init .literal).1).tokenLength,
        (([(HexTokenScan.init, MaskElem.literal)] ++
            [((hexStep variedThenFlat.string maxToken HexTokenScan.init .literal).1,
              MaskElem.literal)]).reverse[j]?).map readOf =
          some ((afterLiteral variedThenFlat.string maxToken
            (hexStep variedThenFlat.string maxToken HexTokenScan.init .literal).1).stringPosition - j,
            .literal, false) :=
  ⟨rfl, rfl, gen_hex_tokens_unique_bytes_window variedThenFlat _ _ _ rfl rfl⟩

/-- On `98 56 ?? 00 00 00` the scan takes every longer window, whatever its count: it emits
`00 00 00`, with one distinct byte, over `98 56`, with two. -/
theorem gen_hex_tokens_prefers_longer_window :
    yrAcGenHexTokens variedThenFlat maxToken = [⟨3, [0, 0, 0]⟩] ∧
      [0x98, 0x56] ∈ hexWindows variedThenFlat.string maxToken variedThenFlat.mask ∧
      [(0 : UInt8), 0, 0].toFinset.card < [(0x98 : UInt8), 0x56].toFinset.card :=
  ⟨by decide, by decide, by decide⟩

end YaraAhoCorasick.HexWindow
