import Mathlib
import YaraAhoCorasick.HexWindow
import YaraAhoCorasick.TokenMatching

namespace YaraAhoCorasick.HexSoundness

open YaraAhoCorasick.Tokens YaraAhoCorasick.TokenMatching YaraAhoCorasick.HexWindow

/-- The window `_yr_ac_gen_hex_tokens` will copy: where it starts in `string`, its length, and
its backtrack. -/
structure Candidate where
  position : Int
  length : Nat
  backtrack : Int

/-- The locals of the loop that decide where the token lies: all but the circular buffer
`last` and the counts of distinct bytes. -/
structure Locals where
  insideOr : Bool
  tokenLength : Nat
  backtrack : Int
  orStringLength : Nat
  previousOrStringLength : Nat
  stringPosition : Nat
  candidate : Candidate

def locals (s : HexTokenScan) : Locals :=
  ⟨s.insideOr, s.tokenLength, s.backtrack, s.orStringLength, s.previousOrStringLength,
    s.stringPosition,
    ⟨s.candidateTokenPosition, s.candidateTokenLength, s.candidateTokenBacktrack⟩⟩

def orPrevious (s : HexTokenScan) : Nat :=
  if s.previousOrStringLength = 0 then s.orStringLength else s.previousOrStringLength

variable {string d : List UInt8} {n : Nat} {s : HexTokenScan}

theorem hexPrepare_eq (e : MaskElem) : hexPrepare string s e = { s with
    last := if s.tokenLength = 0 then fun _ => string.getD s.stringPosition 0 else s.last
    insideOr := if e = .maskOr then true else if e = .maskOrEnd then false else s.insideOr } := by
  unfold hexPrepare
  split_ifs <;> rfl

theorem orPrevious_eq (s : HexTokenScan) :
    (if s.previousOrStringLength = 0 then s.orStringLength else s.previousOrStringLength) =
      orPrevious s := rfl

theorem hexStep_of_ne_literal {e : MaskElem} (he : e ≠ .literal) :
    hexStep string n s e = hexAdvance e { hexPrepare string s e with tokenLength := 0 } :=
  if_neg fun h => he h.1

theorem hexLoop_cons_continue {e : MaskElem} {es : List MaskElem}
    (h : (hexStep string n s e).2 = true) :
    hexLoop string n (e :: es) s = hexLoop string n es (hexStep string n s e).1 := by
  rcases hs : hexStep string n s e with ⟨s', _ | _⟩ <;> simp_all [hexLoop]

theorem hexLoop_cons_stop {e : MaskElem} {es : List MaskElem}
    (h : (hexStep string n s e).2 = false) :
    hexLoop string n (e :: es) s = (hexStep string n s e).1 := by
  rcases hs : hexStep string n s e with ⟨s', _ | _⟩ <;> simp_all [hexLoop]

theorem hexStep_inside (string : List UInt8) (n : Nat) {e : MaskElem}
    (he : e = .literal ∨ ∃ m, e = .wildcard m) (hor : s.insideOr = true) :
    (hexStep string n s e).2 = true ∧ locals (hexStep string n s e).1 = { locals s with
      tokenLength := 0, stringPosition := s.stringPosition + 1,
      orStringLength := s.orStringLength + 1 } := by
  rcases he with rfl | ⟨m, rfl⟩ <;>
    simp [hexStep, hexPrepare_eq, hexAdvance, isSkipOrOr, hor, locals]

theorem hexStep_wildcard (string : List UInt8) (n : Nat) (m : UInt8) (hor : s.insideOr = false) :
    (hexStep string n s (.wildcard m)).2 = true ∧ locals (hexStep string n s (.wildcard m)).1 =
      { locals s with
        tokenLength := 0, stringPosition := s.stringPosition + 1,
        backtrack := s.backtrack + 1 } := by
  simp [hexStep, hexPrepare_eq, hexAdvance, isSkipOrOr, hor, locals]

theorem hexStep_exactSkip (string : List UInt8) (n : Nat) (count : UInt8) :
    (hexStep string n s (.maskExactSkip count)).2 = true ∧
      locals (hexStep string n s (.maskExactSkip count)).1 =
        { locals s with tokenLength := 0, backtrack := s.backtrack + count.toNat } := by
  simp [hexStep, hexPrepare_eq, hexAdvance, isSkipOrOr, locals]

theorem hexStep_rangeSkip (string : List UInt8) (n : Nat) :
    (hexStep string n s .maskRangeSkip).2 = false ∧
      locals (hexStep string n s .maskRangeSkip).1 = { locals s with tokenLength := 0 } := by
  simp [hexStep, hexPrepare_eq, hexAdvance, isSkipOrOr, locals]

theorem hexStep_maskOr (string : List UInt8) (n : Nat) :
    (hexStep string n s .maskOr).2 = decide (s.orStringLength = orPrevious s) ∧
      locals (hexStep string n s .maskOr).1 = { locals s with
        insideOr := true, tokenLength := 0,
        orStringLength := if s.orStringLength = orPrevious s then 0 else s.orStringLength,
        previousOrStringLength := orPrevious s } := by
  rw [hexStep_of_ne_literal (by decide), hexPrepare_eq]
  simp only [hexAdvance, isSkipOrOr, if_true, orPrevious_eq]
  by_cases h : s.orStringLength = orPrevious s <;> simp [h, locals]

theorem hexStep_maskOrEnd (string : List UInt8) (n : Nat) :
    (hexStep string n s .maskOrEnd).2 = decide (s.orStringLength = orPrevious s) ∧
      locals (hexStep string n s .maskOrEnd).1 = if s.orStringLength = orPrevious s then
        { locals s with
          insideOr := false, tokenLength := 0, orStringLength := 0,
          backtrack := s.backtrack + orPrevious s, previousOrStringLength := 0 }
      else { locals s with
        insideOr := false, tokenLength := 0, previousOrStringLength := orPrevious s } := by
  rw [hexStep_of_ne_literal (by decide), hexPrepare_eq]
  simp only [hexAdvance, isSkipOrOr, if_true, orPrevious_eq]
  by_cases h : s.orStringLength = orPrevious s <;> simp [h, locals]

theorem hexLiteral_locals (string : List UInt8) (n : Nat) {l : Locals} (hl : locals s = l) :
    ∃ c, (c = l.candidate ∨ c = ⟨l.stringPosition - min (l.tokenLength + 1) n + 1,
        min (l.tokenLength + 1) n, l.backtrack - min (l.tokenLength + 1) n + 1⟩) ∧
      locals (hexLiteral string n s).1 =
        { l with tokenLength := min (l.tokenLength + 1) n, candidate := c } := by
  subst hl
  dsimp only [hexLiteral]
  split_ifs
  · exact ⟨_, .inr rfl, rfl⟩
  · exact ⟨_, .inl rfl, rfl⟩

theorem hexStep_literal (string : List UInt8) (n : Nat) (hor : s.insideOr = false) :
    ∃ c, (c = (locals s).candidate ∨ c = ⟨s.stringPosition - min (s.tokenLength + 1) n + 1,
        min (s.tokenLength + 1) n, s.backtrack - min (s.tokenLength + 1) n + 1⟩) ∧
      locals (hexStep string n s .literal).1 = if (hexStep string n s .literal).2 then
        { locals s with
          tokenLength := min (s.tokenLength + 1) n,
          stringPosition := s.stringPosition + 1, backtrack := s.backtrack + 1, candidate := c }
      else { locals s with tokenLength := min (s.tokenLength + 1) n, candidate := c } := by
  have hp : locals (hexPrepare string s .literal) = locals s := by
    rw [hexPrepare_literal]; split_ifs <;> rfl
  have hin : (hexPrepare string s .literal).insideOr = false :=
    (congrArg Locals.insideOr hp).trans hor
  obtain ⟨c, hc, h⟩ := hexLiteral_locals string n hp
  refine ⟨c, hc, ?_⟩
  dsimp only [hexStep]
  rw [if_pos ⟨rfl, hin⟩]
  generalize hexLiteral string n (hexPrepare string s .literal) = r at h
  obtain ⟨s₂, _ | _⟩ := r
  · exact h
  · have hadv : locals (hexAdvance .literal s₂).1 = { locals s₂ with
        stringPosition := (locals s₂).stringPosition + 1,
        backtrack := (locals s₂).backtrack + 1 } := by
      rw [hexAdvance_literal s₂ ((congrArg Locals.insideOr h).trans hor)]; rfl
    rw [hadv, h]
    rfl

def Candidate.LiesIn (c : Candidate) (string d : List UInt8) (o : Nat) : Prop :=
  0 ≤ c.backtrack ∧ ∀ j < c.length,
    d.get? (o + c.backtrack.toNat + j) = some (string.getD (c.position.toNat + j) 0)

/-- Between two items of a hex string matching `d` from `o` up to `oc`: no alternation is open,
the run of literals ends at `oc` in `d`, and the candidate lies in `d`. -/
structure ScanOk (string d : List UInt8) (o oc : Nat) (l : Locals) : Prop where
  insideOr : l.insideOr = false
  orStringLength : l.orStringLength = 0
  previousOrStringLength : l.previousOrStringLength = 0
  le : o ≤ oc
  backtrack : l.backtrack = ((oc - o : Nat) : Int)
  run_le_position : l.tokenLength ≤ l.stringPosition
  run_le : l.tokenLength ≤ oc - o
  run : ∀ j < l.tokenLength,
    d.get? (oc - l.tokenLength + j) = some (string.getD (l.stringPosition - l.tokenLength + j) 0)
  candidate : l.candidate.LiesIn string d o

variable {o oc : Nat} {l : Locals}

theorem scanOk_init : ScanOk string d o o (locals HexTokenScan.init) :=
  ⟨rfl, rfl, rfl, le_rfl, by simp [locals, HexTokenScan.init], Nat.zero_le _, Nat.zero_le _,
    fun _ h => absurd h (Nat.not_lt_zero _),
    ⟨le_rfl, fun _ h => absurd h (Nat.not_lt_zero _)⟩⟩

theorem ScanOk.cut (h : ScanOk string d o oc l) (j k : Nat) :
    ScanOk string d o (oc + j) { l with
      tokenLength := 0, stringPosition := l.stringPosition + k, backtrack := l.backtrack + j } :=
  ⟨h.insideOr, h.orStringLength, h.previousOrStringLength, Nat.le_add_right_of_le h.le,
    by have := h.le; simp only [h.backtrack]; omega, Nat.zero_le _, Nat.zero_le _,
    fun _ h => absurd h (Nat.not_lt_zero _), h.candidate⟩

theorem ScanOk.window (h : ScanOk string d o oc l)
    (hbyte : d.get? oc = some (string.getD l.stringPosition 0)) {t : Nat}
    (ht : t ≤ l.tokenLength + 1) :
    ∀ j < t, d.get? (oc + 1 - t + j) = some (string.getD (l.stringPosition + 1 - t + j) 0) := by
  intro j hj
  have hp := h.run_le_position
  have hr := h.run_le
  by_cases hlast : j + 1 = t
  · rwa [show oc + 1 - t + j = oc by omega,
      show l.stringPosition + 1 - t + j = l.stringPosition by omega]
  · have hrun := h.run (j + l.tokenLength + 1 - t) (by omega)
    rwa [show oc - l.tokenLength + (j + l.tokenLength + 1 - t) = oc + 1 - t + j by omega,
      show l.stringPosition - l.tokenLength + (j + l.tokenLength + 1 - t) =
        l.stringPosition + 1 - t + j by omega] at hrun

theorem ScanOk.literal (h : ScanOk string d o oc (locals s))
    (hbyte : d.get? oc = some (string.getD s.stringPosition 0)) :
    (locals (hexStep string n s .literal).1).candidate.LiesIn string d o ∧
      ((hexStep string n s .literal).2 = true →
        ScanOk string d o (oc + 1) (locals (hexStep string n s .literal).1) ∧
          (hexStep string n s .literal).1.stringPosition = s.stringPosition + 1) := by
  obtain ⟨c, hc, heq⟩ := hexStep_literal string n h.insideOr
  have hw := h.window hbyte (t := min (s.tokenLength + 1) n) (min_le_left _ _)
  have hb := h.backtrack
  have hp := h.run_le_position
  have hr := h.run_le
  have hle := h.le
  simp only [locals] at hb hp hr
  have hcand : c.LiesIn string d o := by
    rcases hc with rfl | rfl
    · exact h.candidate
    · refine ⟨by simp only; omega, fun j hj => ?_⟩
      simp only at hj ⊢
      rw [show o + (s.backtrack - (min (s.tokenLength + 1) n : Nat) + 1).toNat + j =
          oc + 1 - min (s.tokenLength + 1) n + j by omega,
        show (s.stringPosition - (min (s.tokenLength + 1) n : Nat) + 1 : Int).toNat + j =
          s.stringPosition + 1 - min (s.tokenLength + 1) n + j by omega]
      exact hw j hj
  cases hgo : (hexStep string n s .literal).2
  · simp only [hgo, Bool.false_eq_true, if_false] at heq
    exact ⟨by rw [heq]; exact hcand, fun h => absurd h Bool.false_ne_true⟩
  · simp only [hgo, if_true] at heq
    refine ⟨by rw [heq]; exact hcand, fun _ => ⟨?_, congrArg Locals.stringPosition heq⟩⟩
    rw [heq]
    exact ⟨h.insideOr, h.orStringLength, h.previousOrStringLength, by omega, by simp only; omega,
      by simp only; omega, by simp only; omega, hw, hcand⟩

theorem ScanOk.locals_eq (h : ScanOk string d o oc (locals s)) :
    locals s =
      ⟨false, s.tokenLength, s.backtrack, 0, 0, s.stringPosition, (locals s).candidate⟩ := by
  have h₁ : s.insideOr = false := h.insideOr
  have h₂ : s.orStringLength = 0 := h.orStringLength
  have h₃ : s.previousOrStringLength = 0 := h.previousOrStringLength
  simp only [locals, h₁, h₂, h₃]

def byteAtom : HexAtom → Bool
  | .byte _ _ => true
  | _ => false

/-- An item whose alternatives, if it is an alternation, are nonempty runs of bytes. -/
def jumpFree : HexItem → Bool
  | .atom _ => true
  | .alternation alts => alts.all fun alt => !alt.isEmpty && alt.all byteAtom

theorem jumpFree_alternation {alts : List (List HexAtom)} :
    jumpFree (.alternation alts) = true ↔
      ∀ alt ∈ alts, alt ≠ [] ∧ ∀ a ∈ alt, byteAtom a = true := by
  simp [jumpFree]

theorem byteAtom_maskElem {a : HexAtom} (ha : byteAtom a = true) :
    a.maskElem = .literal ∨ ∃ m, a.maskElem = .wildcard m := by
  cases a <;> simp only [byteAtom, Bool.false_eq_true] at ha
  rename_i m
  dsimp only [HexAtom.maskElem]
  split_ifs
  exacts [.inl rfl, .inr ⟨m, rfl⟩]

theorem hexLoop_inside (string : List UInt8) (n : Nat) {alt : List HexAtom}
    (halt : ∀ a ∈ alt, byteAtom a = true) :
    ∀ s : HexTokenScan, s.insideOr = true → s.tokenLength = 0 →
      ∃ s', locals s' = { locals s with
          stringPosition := (locals s).stringPosition + alt.length
          orStringLength := (locals s).orStringLength + alt.length } ∧
        ∀ es, hexLoop string n (alt.map HexAtom.maskElem ++ es) s = hexLoop string n es s' := by
  induction alt with
  | nil => exact fun s _ _ => ⟨s, rfl, fun _ => rfl⟩
  | cons a alt ih =>
    intro s hor htl
    obtain ⟨hgo, h₁⟩ := hexStep_inside string n
      (byteAtom_maskElem (halt a (List.mem_cons_self _ _))) hor
    obtain ⟨s', h', hloop⟩ := ih (fun a ha => halt a (List.mem_cons_of_mem _ ha)) _
      ((congrArg Locals.insideOr h₁).trans hor) (congrArg Locals.tokenLength h₁)
    refine ⟨s', ?_, fun es => ?_⟩
    · rw [h', h₁]
      simp only [locals, htl, List.length_cons, Nat.add_assoc, Nat.add_comm 1]
    · rw [List.map_cons, List.cons_append, hexLoop_cons_continue hgo, hloop]

/-- What the alternatives read so far guarantee when the next length comparison succeeds: all
have the length compared against, zero only when there are none. -/
def Checked (s : HexTokenScan) (done : List (List HexAtom)) : Prop :=
  s.orStringLength = orPrevious s →
    (∀ a ∈ done, a.length = orPrevious s) ∧ (orPrevious s = 0 → done = [])

theorem Checked.next {s s' : HexTokenScan} {done : List (List HexAtom)} {alt : List HexAtom}
    (h : Checked s done) (hgo : s.orStringLength = orPrevious s) (halt : alt ≠ [])
    (hlen : s'.orStringLength = alt.length) (hprev : s'.previousOrStringLength = orPrevious s) :
    Checked s' (done ++ [alt]) := by
  obtain ⟨hdone, hzero⟩ := h hgo
  have hprev' : orPrevious s' = if orPrevious s = 0 then alt.length else orPrevious s := by
    rw [orPrevious, hlen, hprev]
  intro hgo'
  rw [hprev', hlen] at hgo'
  rw [hprev']
  by_cases hP : orPrevious s = 0
  · rw [if_pos hP, hzero hP]
    exact ⟨fun a ha => by rw [List.mem_singleton.mp ha], fun h0 => absurd h0
      (List.length_pos.mpr halt).ne'⟩
  · rw [if_neg hP] at hgo' ⊢
    refine ⟨fun a ha => ?_, fun h0 => absurd h0 hP⟩
    rcases List.mem_append.mp ha with ha | ha
    · exact hdone a ha
    · rw [List.mem_singleton.mp ha, hgo']

theorem hexLoop_alternatives (string : List UInt8) (n : Nat) {alts : List (List HexAtom)}
    (halts : ∀ alt ∈ alts, alt ≠ [] ∧ ∀ a ∈ alt, byteAtom a = true) :
    ∀ (s : HexTokenScan) (done : List (List HexAtom)), Checked s done →
      (∃ (s' : HexTokenScan) (inc : Nat), locals s' = ⟨false, 0, s.backtrack + inc, 0, 0,
          s.stringPosition + (alts.map List.length).sum, (locals s).candidate⟩ ∧
        (∀ a ∈ done ++ alts, a.length = inc) ∧
        ∀ es, hexLoop string n
          ((alts.map fun alt => .maskOr :: alt.map HexAtom.maskElem).flatten ++
            .maskOrEnd :: es) s = hexLoop string n es s') ∨
      ∀ es, (locals (hexLoop string n
        ((alts.map fun alt => .maskOr :: alt.map HexAtom.maskElem).flatten ++ .maskOrEnd :: es)
          s)).candidate = (locals s).candidate := by
  induction alts with
  | nil =>
    intro s done h
    obtain ⟨hgo, heq⟩ := hexStep_maskOrEnd string n (s := s)
    simp only [List.map_nil, List.flatten_nil, List.nil_append, List.append_nil]
    by_cases hpass : s.orStringLength = orPrevious s
    · rw [if_pos hpass] at heq
      exact .inl ⟨_, orPrevious s, by rw [heq]; rfl, (h hpass).1,
        fun es => hexLoop_cons_continue (hgo.trans (decide_eq_true hpass))⟩
    · rw [if_neg hpass] at heq
      exact .inr fun es => by rw [hexLoop_cons_stop (hgo.trans (decide_eq_false hpass)), heq]
  | cons alt rest ih =>
    intro s done h
    obtain ⟨hne, halt⟩ := halts alt (List.mem_cons_self _ _)
    obtain ⟨hgo, h₁⟩ := hexStep_maskOr string n (s := s)
    simp only [List.map_cons, List.flatten_cons, List.cons_append, List.append_assoc]
    by_cases hpass : s.orStringLength = orPrevious s
    · rw [if_pos hpass] at h₁
      have hgo₁ : ∀ es, hexLoop string n (.maskOr :: es) s =
          hexLoop string n es (hexStep string n s .maskOr).1 :=
        fun _ => hexLoop_cons_continue (hgo.trans (decide_eq_true hpass))
      obtain ⟨s₂, h₂, hloop₂⟩ := hexLoop_inside string n halt _
        (congrArg Locals.insideOr h₁) (congrArg Locals.tokenLength h₁)
      have hf : locals s₂ = ⟨true, 0, s.backtrack, alt.length, orPrevious s,
          s.stringPosition + alt.length, (locals s).candidate⟩ := by
        rw [h₂, h₁]
        simp only [Nat.zero_add]
        rfl
      have hb₂ : s₂.backtrack = s.backtrack := congrArg Locals.backtrack hf
      have hp₂ : s₂.stringPosition = s.stringPosition + alt.length :=
        congrArg Locals.stringPosition hf
      have hc₂ : (locals s₂).candidate = (locals s).candidate := by rw [hf]
      rcases ih (fun a ha => halts a (List.mem_cons_of_mem _ ha)) s₂ (done ++ [alt])
          (h.next hpass hne (congrArg Locals.orStringLength hf)
            (congrArg Locals.previousOrStringLength hf)) with
        ⟨s', inc, h', hall, hloop⟩ | hstop
      · refine .inl ⟨s', inc, ?_, List.append_cons done alt rest ▸ hall, fun es => ?_⟩
        · rw [h', hb₂, hp₂, hc₂, List.sum_cons, Nat.add_assoc]
        · rw [hgo₁, hloop₂, hloop]
      · exact .inr fun es => by rw [hgo₁, hloop₂, hstop, hc₂]
    · rw [if_neg hpass] at h₁
      exact .inr fun es => by rw [hexLoop_cons_stop (hgo.trans (decide_eq_false hpass)), h₁]

theorem land_ff (b : UInt8) : b &&& 0xFF = b :=
  show (⟨b.toBitVec &&& BitVec.allOnes 8⟩ : UInt8) = b by rw [BitVec.and_allOnes]

theorem getD_of_prefix {b : UInt8} {rest : List UInt8} {k : Nat}
    (h : b :: rest <+: string.drop k) : string.getD k 0 = b := by
  obtain ⟨t, ht⟩ := h
  have hk := congrArg (·[0]?) ht
  simp only [List.cons_append, List.getElem?_cons_zero, List.getElem?_drop, Nat.add_zero] at hk
  simp [List.getD_eq_getElem?_getD, ← hk]

theorem prefix_drop_append {a b : List UInt8} {k : Nat} (h : a ++ b <+: string.drop k) :
    b <+: string.drop (k + a.length) := by
  obtain ⟨t, ht⟩ := h
  exact ⟨t, by rw [← List.drop_drop, ← ht, List.append_assoc, List.drop_left]⟩

theorem seq_byteAtoms {alt : List HexAtom} {oc' : Nat} (h : Seq (HexAtom.Matches d) alt oc oc')
    (halt : ∀ a ∈ alt, byteAtom a = true) : oc' = oc + alt.length := by
  induction h with
  | nil => rfl
  | cons ha _ ih =>
    have := ih fun a h => halt a (List.mem_cons_of_mem _ h)
    cases ha with
    | byte => simp only [List.length_cons]; omega
    | jump => simp [byteAtom] at halt
    | rangeJump => simp [byteAtom] at halt

theorem alternation_bytes_length {alts : List (List HexAtom)}
    (h : ∀ alt ∈ alts, ∀ a ∈ alt, byteAtom a = true) :
    (HexItem.alternation alts).bytes.length = (alts.map List.length).sum := by
  have hbytes : ∀ alt : List HexAtom, (∀ a ∈ alt, byteAtom a = true) →
      (alt.flatMap HexAtom.bytes).length = alt.length := by
    intro alt
    induction alt with
    | nil => exact fun _ => rfl
    | cons a alt ih =>
      intro h
      cases a <;> simp only [byteAtom, List.mem_cons, forall_eq_or_imp, Bool.false_eq_true,
        false_and] at h
      simp only [List.flatMap_cons, HexAtom.bytes, List.length_append, List.length_singleton,
        List.length_cons, List.length_nil, ih h.2, Nat.zero_add, Nat.add_comm]
  induction alts with
  | nil => rfl
  | cons alt alts ih =>
    simp only [HexItem.bytes, List.map_cons, List.flatten_cons, List.length_append,
      List.sum_cons] at ih ⊢
    rw [hbytes alt (h alt (List.mem_cons_self _ _)), ih fun a ha => h a (List.mem_cons_of_mem _ ha)]

theorem maskElems_atom (a : HexAtom) (es : List MaskElem) :
    (HexItem.atom a).maskElems ++ es = a.maskElem :: es := rfl

theorem hexLoop_item {x : HexItem} (hx : jumpFree x = true) {oc' : Nat}
    (hs : ScanOk string d o oc (locals s)) (hstr : x.bytes <+: string.drop s.stringPosition)
    (hm : x.Matches d oc oc') :
    (∃ s', ScanOk string d o oc' (locals s') ∧
        s'.stringPosition = s.stringPosition + x.bytes.length ∧
        ∀ es, hexLoop string n (x.maskElems ++ es) s = hexLoop string n es s') ∨
      ∀ es, (locals (hexLoop string n (x.maskElems ++ es) s)).candidate.LiesIn string d o := by
  cases hm with
  | atom ha =>
    cases ha with
    | @byte v m b _ hb hbm =>
      by_cases hff : m = 0xFF
      · subst hff
        have hbyte : d.get? oc = some (string.getD s.stringPosition 0) := by
          rw [hb, getD_of_prefix hstr, ← hbm, land_ff]
        obtain ⟨hc, hnext⟩ := hs.literal (n := n) hbyte
        cases hgo : (hexStep string n s .literal).2
        · exact .inr fun es => by
            rw [maskElems_atom, HexAtom.maskElem, if_pos rfl, hexLoop_cons_stop hgo]; exact hc
        · obtain ⟨hs', hsp⟩ := hnext hgo
          exact .inl ⟨_, hs', hsp, fun es => hexLoop_cons_continue hgo⟩
      · obtain ⟨hgo, heq⟩ := hexStep_wildcard string n m hs.insideOr
        refine .inl ⟨_, by rw [heq]; exact hs.cut 1 1, congrArg Locals.stringPosition heq,
          fun es => ?_⟩
        rw [maskElems_atom, HexAtom.maskElem, if_neg hff, hexLoop_cons_continue hgo]
    | @jump count _ _ =>
      obtain ⟨hgo, heq⟩ := hexStep_exactSkip string n (s := s) count
      exact .inl ⟨_, by rw [heq]; exact hs.cut _ 0, congrArg Locals.stringPosition heq,
        fun es => hexLoop_cons_continue hgo⟩
    | rangeJump =>
      obtain ⟨hgo, heq⟩ := hexStep_rangeSkip string n (s := s)
      exact .inr fun es => by
        rw [maskElems_atom, HexAtom.maskElem, hexLoop_cons_stop hgo, heq]
        exact hs.candidate
  | @alternation alts alt _ _ hmem hseq =>
    have halts := jumpFree_alternation.mp hx
    have hoc := seq_byteAtoms hseq (halts alt hmem).2
    have hmask : ∀ es, (HexItem.alternation alts).maskElems ++ es =
        (alts.map fun alt => .maskOr :: alt.map HexAtom.maskElem).flatten ++ .maskOrEnd :: es :=
      fun es => by simp [HexItem.maskElems]
    rcases hexLoop_alternatives string n halts s []
        (fun _ => ⟨fun a ha => absurd ha (List.not_mem_nil a), fun _ => rfl⟩) with
      ⟨s', inc, heq, hall, hloop⟩ | hstop
    · have hcut := hs.cut inc (alts.map List.length).sum
      rw [hs.locals_eq] at hcut
      refine .inl ⟨s', ?_, ?_, fun es => by rw [hmask]; exact hloop es⟩
      · rw [heq, hoc, hall alt (List.mem_append_right _ hmem)]
        exact hcut
      · rw [alternation_bytes_length fun alt h => (halts alt h).2]
        exact congrArg Locals.stringPosition heq
    · exact .inr fun es => by rw [hmask, hstop]; exact hs.candidate

theorem hexLoop_items (string : List UInt8) (n : Nat) {q : List HexItem} {oc' : Nat}
    (hm : Seq (HexItem.Matches d) q oc oc') (hq : ∀ x ∈ q, jumpFree x = true) :
    ∀ s, ScanOk string d o oc (locals s) →
      q.flatMap HexItem.bytes <+: string.drop s.stringPosition →
      (locals (hexLoop string n (q.flatMap HexItem.maskElems) s)).candidate.LiesIn string d o := by
  induction hm with
  | nil => exact fun s hs _ => hs.candidate
  | @cons x xs _ _ _ hx _ ih =>
    intro s hs hstr
    rw [List.flatMap_cons] at hstr ⊢
    rcases hexLoop_item (n := n) (hq x (List.mem_cons_self _ _)) hs
        ((List.prefix_append _ _).trans hstr) hx with
      ⟨s', hs', hsp, hloop⟩ | hstop
    · rw [hloop]
      exact ih (fun y hy => hq y (List.mem_cons_of_mem _ hy)) s' hs'
        (hsp ▸ prefix_drop_append hstr)
    · exact hstop _

theorem map_range_prefix_drop {k L : Nat} {f : Nat → UInt8}
    (h : ∀ j < L, d.get? (k + j) = some (f j)) : (List.range L).map f <+: d.drop k := by
  rw [List.prefix_iff_eq_take]
  apply List.ext_getElem?
  intro j
  by_cases hj : j < L
  · simp [hj, ← h j hj, List.getElem?_take]
  · simp [hj, List.getElem?_take]; omega

theorem hexTokens_lie_in {p : List HexItem} (hp : ∀ x ∈ p, jumpFree x = true)
    {d : List UInt8} {o o' : Nat} (hm : Seq (HexItem.Matches d) p o o') (n : Nat) :
    ∀ r ∈ yrAcGenHexTokens (hexString p) n,
      0 ≤ r.backtrack ∧ r.token <+: d.drop (o + r.backtrack.toNat) := by
  intro r hr
  have hc := hexLoop_items (hexString p).string n hm hp _ scanOk_init (List.prefix_refl _)
  rw [yrAcGenHexTokens, List.mem_singleton] at hr
  subst hr
  exact ⟨hc.1, map_range_prefix_drop hc.2⟩

/-- `_yr_ac_gen_hex_tokens` is sound when alternatives are runs of bytes: wherever the hex string
matches `d` from `o`, its token is in `d` at `o` plus its backtrack. -/
theorem gen_hex_tokens_sound (p : List HexItem) (hp : ∀ x ∈ p, jumpFree x = true)
    {d : List UInt8} {o o' : Nat} (hm : Seq (HexItem.Matches d) p o o') :
    ∀ n, 1 ≤ n → n ≤ maxToken → ∀ r ∈ yrAcGenHexTokens (hexString p) n,
      0 ≤ r.backtrack ∧ r.token <+: d.drop (o + r.backtrack.toNat) :=
  fun n _ _ => hexTokens_lie_in hp hm n

def byteAlternation : List HexItem :=
  [.atom (.byte 0x11 0xFF), .alternation [[.byte 0x01 0xFF], [.byte 0x02 0xFF]],
    .atom (.byte 0x22 0xFF), .atom (.byte 0x33 0xFF)]

theorem gen_hex_tokens_sound_byteAlternation :
    (∀ x ∈ byteAlternation, jumpFree x = true) ∧
      Seq (HexItem.Matches [0x11, 0x02, 0x22, 0x33]) byteAlternation 0 4 ∧
      ∀ r ∈ yrAcGenHexTokens (hexString byteAlternation) maxToken,
        0 ≤ r.backtrack ∧ r.token <+: [0x11, 0x02, 0x22, 0x33].drop (0 + r.backtrack.toNat) :=
  have hp : ∀ x ∈ byteAlternation, jumpFree x = true := by decide
  have hm : Seq (HexItem.Matches [0x11, 0x02, 0x22, 0x33]) byteAlternation 0 4 :=
    .cons (.atom (.byte rfl rfl))
      (.cons (.alternation (List.mem_cons_of_mem _ (List.mem_singleton_self _))
        (.cons (.byte rfl rfl) (.nil 2)))
      (.cons (.atom (.byte rfl rfl)) (.cons (.atom (.byte rfl rfl)) (.nil 4))))
  ⟨hp, hm, gen_hex_tokens_sound byteAlternation hp hm maxToken (by decide) le_rfl⟩

example : yrAcGenHexTokens (hexString byteAlternation) maxToken = [⟨2, [0x22, 0x33]⟩] := rfl

end YaraAhoCorasick.HexSoundness
