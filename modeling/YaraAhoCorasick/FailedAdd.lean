import YaraAhoCorasick.Insertions

namespace YaraAhoCorasick.FailedAdd

open YaraAhoCorasick.Tokens YaraAhoCorasick.Automaton YaraAhoCorasick.AddString
  YaraAhoCorasick.Trie YaraAhoCorasick.MatchList YaraAhoCorasick.Insertions

/-- Following `next` from `head` meets the records `ms` and then arrives at `target`. -/
inductive Segment (A : Arena) (target : Option Nat) : Option Nat → List Nat → Prop
  | nil : Segment A target target []
  | cons {m : Nat} {ms : List Nat} :
      Segment A target (A.matchRecords m).next ms → Segment A target (some m) (m :: ms)

theorem Segment.frame {A B : Arena} {target head : Option Nat} {ms : List Nat}
    (h : Segment A target head ms) (hm : ∀ m ∈ ms, B.matchRecords m = A.matchRecords m) :
    Segment B target head ms := by
  induction h with
  | nil => exact .nil
  | @cons m ms _ ih =>
    refine .cons ?_
    rw [hm m (List.mem_cons_self _ _)]
    exact ih fun m' h' => hm m' (List.mem_cons_of_mem _ h')

/-- Every allocation from the `calls`-th of `A` to the last of `B` succeeds, and the outcomes
of the later ones are those of `A`. -/
def Succeeds (A B : Arena) : Prop :=
  B.ok = A.ok ∧ A.calls ≤ B.calls ∧ ∀ n, A.calls ≤ n → n < B.calls → A.ok n = true

theorem Succeeds.refl (A : Arena) : Succeeds A A := ⟨rfl, le_rfl, fun _ h h' => absurd h' (by omega)⟩

theorem Succeeds.trans {A B C : Arena} (h₁ : Succeeds A B) (h₂ : Succeeds B C) : Succeeds A C :=
  ⟨h₂.1.trans h₁.1, h₁.2.1.trans h₂.2.1, fun n hn hn' => by
    by_cases hb : n < B.calls
    · exact h₁.2.2 n hn hb
    · rw [← h₁.1]; exact h₂.2.2 n (by omega) hn'⟩

theorem succeeds_allocate {A : Arena} (h : A.ok A.calls = true) : Succeeds A A.allocate.2 :=
  ⟨rfl, Nat.le_succ _, fun n hn hn' => by
    obtain rfl : n = A.calls := by simp [Arena.allocate] at hn'; omega
    exact h⟩

theorem succeeds_addMatch {A B : Arena} (h : Succeeds A B) (s : Nat) (backtrack : Int)
    (string : YrString) : Succeeds A (B.addMatch s backtrack string) := h

theorem succeeds_createState {A B : Arena} {p n : Nat} {b : UInt8}
    (h : yrAcCreateState A p b = (B, some n)) : Succeeds A B := by
  unfold yrAcCreateState at h
  simp only [Arena.allocate] at h
  cases h1 : A.ok A.calls <;> simp only [h1] at h
  · cases h
  cases h2 : A.ok (A.calls + 1) <;> simp only [Arena.newState, h2] at h
  · cases h
  obtain ⟨rfl, -⟩ := Prod.mk.inj h
  refine ⟨rfl, by dsimp only [Arena.setState]; omega, fun m hm hm' => ?_⟩
  obtain rfl | rfl : m = A.calls ∨ m = A.calls + 1 := by
    simp [Arena.setState, Arena.newState] at hm'; omega
  exacts [h1, h2]

theorem succeeds_addPath {A : Arena} {s t : Nat} {bytes : List UInt8}
    (h : (addPath A s bytes).2 = some t) : Succeeds A (addPath A s bytes).1 := by
  induction bytes generalizing A s with
  | nil => exact Succeeds.refl A
  | cons c w ih =>
    simp only [addPath] at h ⊢
    cases hn : yrAcNextState A s c with
    | some next =>
      simp only [hn] at h ⊢
      exact ih h
    | none =>
      rcases hc : yrAcCreateState A s c with ⟨B, _ | n⟩ <;> simp only [hn, hc] at h ⊢
      · cases h
      · exact (succeeds_createState hc).trans (ih h)

/-- What `yr_ac_add_string` has done so far, having attached `J` along prefixes of `paths`: the
old trie and records kept, and each list the new records of its label ahead of the old one. -/
structure Extends (A C : Arena) (root : Nat) (paths : List (List UInt8)) (J : List Insertion) :
    Prop where
  trie : TrieInv C root
  count : A.stateCount ≤ C.stateCount
  matchCount : A.matchCount ≤ C.matchCount
  records : ∀ m < A.matchCount, C.matchRecords m = A.matchRecords m
  failure : ∀ s < A.stateCount, (C.states s).failure = (A.states s).failure
  keep : ∀ w s, reach A root w = some s → reach C root w = some s
  new : ∀ w s, reach C root w = some s →
    reach A root w = some s ∨ ((∃ p ∈ paths, w <+: p) ∧ A.stateCount ≤ s)
  reached : ∀ x ∈ J, ∃ s, reach C root x.token = some s
  lists : ∀ w s, reach C root w = some s → ∃ ms,
    Segment C (if reach A root w = some s then (A.states s).matchHead else none)
      (C.states s).matchHead ms ∧
    (∀ m ∈ ms, A.matchCount ≤ m ∧ m < C.matchCount) ∧ entries C ms = attachedAt J w
  fresh : ∀ s, A.stateCount ≤ s → s < C.stateCount → (∀ w, reach C root w ≠ some s) →
    (C.states s).matchHead = none

variable {A C D : Arena} {root : Nat} {paths : List (List UInt8)} {J : List Insertion}

theorem Extends.start (hI : TrieInv A root) : Extends A A root paths [] :=
  ⟨hI, le_rfl, le_rfl, fun _ _ => rfl, fun _ _ => rfl, fun _ _ h => h, fun _ _ h => .inl h,
    fun _ h => absurd h (List.not_mem_nil _),
    fun w s hs => ⟨[], by rw [if_pos hs]; exact .nil, by simp, rfl⟩,
    fun s hs hs' _ => absurd hs' (not_lt.mpr hs)⟩

theorem Extends.grow {path : List UInt8} (h : Extends A C root paths J)
    (hG : PathGrowth C D root path) (hp : ∀ w, w <+: path → w = [] ∨ ∃ p ∈ paths, w <+: p) :
    Extends A D root paths J := by
  have hrec : ∀ m, D.matchRecords m = C.matchRecords m := fun m => by rw [hG.grows.records]
  refine ⟨hG.trie, h.count.trans hG.grows.count, hG.grows.matchCount ▸ h.matchCount,
    fun m hm => (hrec m).trans (h.records m hm),
    fun s hs => (hG.grows.failure s (lt_of_lt_of_le hs h.count)).trans (h.failure s hs),
    fun w s hs => hG.keep w s (h.keep w s hs), ?new,
    fun x hx => (h.reached x hx).imp fun s hs => hG.keep _ s hs, ?lists, ?fresh⟩
  case new =>
    intro w s hs
    rcases hG.new w s hs with hc | ⟨hw, hfr⟩
    · exact h.new w s hc
    rcases hp w hw with rfl | hp'
    · exact .inl hs
    · exact .inr ⟨hp', h.count.trans hfr⟩
  case lists =>
    intro w s hs
    rcases hG.new w s hs with hc | ⟨-, hfr⟩
    · obtain ⟨ms, hseg, hlt, he⟩ := h.lists w s hc
      refine ⟨ms, ?_, fun m hm => hG.grows.matchCount ▸ hlt m hm,
        (entries_frame fun m _ => hrec m).trans he⟩
      rw [hG.grows.head s (h.trie.lt w s hc)]
      exact hseg.frame fun m _ => hrec m
    · have hold : reach A root w ≠ some s := fun h' =>
        absurd (h.trie.lt w s (h.keep w s h')) (not_lt.mpr hfr)
      have hnone : ∀ x ∈ J, x.token ≠ w := by
        rintro x hx rfl
        obtain ⟨t, ht⟩ := h.reached x hx
        obtain rfl : t = s := Option.some.inj ((hG.keep _ _ ht).symm.trans hs)
        exact absurd (h.trie.lt _ _ ht) (not_lt.mpr hfr)
      refine ⟨[], ?_, by simp, ?_⟩
      · rw [if_neg hold, hG.grows.fresh s hfr (hG.trie.lt w s hs)]
        exact .nil
      · simpa [attachedAt, entries, List.filter_eq_nil_iff] using hnone
  case fresh =>
    intro s hs hs' hnr
    by_cases hsC : s < C.stateCount
    · rw [hG.grows.head s hsC]
      exact h.fresh s hs hsC fun w hw => hnr w (hG.keep w s hw)
    · exact hG.grows.fresh s (not_lt.mp hsC) hs'

theorem Extends.allocate (h : Extends A C root paths J) : Extends A C.allocate.2 root paths J :=
  h.grow (PathGrowth.frame h.trie (frame_allocate C) (grows_allocate C)) fun _ hw =>
    .inl (List.prefix_nil.mp hw)

theorem Extends.addMatch {x : Insertion} {st : Nat} (h : Extends A C root paths J)
    (hx : reach C root x.token = some st) :
    Extends A (C.addMatch st x.backtrack x.string) root paths (J ++ [x]) := by
  have hF := frame_addMatch C st x.backtrack x.string
  have hr := reach_frame h.trie hF
  have hst : ∀ s, s ≠ st → (C.addMatch st x.backtrack x.string).states s = C.states s :=
    fun s hs => by simp [Arena.addMatch, hs]
  have hrec : ∀ m < C.matchCount,
      (C.addMatch st x.backtrack x.string).matchRecords m = C.matchRecords m :=
    fun m hm => by simp [Arena.addMatch, Function.update_noteq hm.ne]
  refine ⟨h.trie.frame hF, h.count, Nat.le_succ_of_le h.matchCount,
    fun m hm => (hrec m (by have := h.matchCount; omega)).trans (h.records m hm),
    ?failure, fun w s hs => by rw [hr]; exact h.keep w s hs,
    fun w s hs => h.new w s (by rwa [hr] at hs), ?reached, ?lists, ?fresh⟩
  case failure =>
    intro s hs
    by_cases hss : s = st
    · subst hss; simp [Arena.addMatch, h.failure s hs]
    · rw [hst s hss, h.failure s hs]
  case reached =>
    intro y hy
    rcases List.mem_append.mp hy with hy | hy
    · obtain ⟨t, ht⟩ := h.reached y hy
      exact ⟨t, by rw [hr]; exact ht⟩
    · obtain rfl := List.mem_singleton.mp hy
      exact ⟨st, by rw [hr]; exact hx⟩
  case lists =>
    intro w s hs
    rw [hr] at hs
    obtain ⟨ms, hseg, hlt, he⟩ := h.lists w s hs
    have hrec' : ∀ m ∈ ms, (C.addMatch st x.backtrack x.string).matchRecords m = C.matchRecords m :=
      fun m hm => hrec m (hlt m hm).2
    by_cases hw : x.token = w
    · subst hw
      obtain rfl : s = st := Option.some.inj (hs.symm.trans hx)
      refine ⟨C.matchCount :: ms, ?_, fun m hm => ?_, ?_⟩
      · have hhead : ((C.addMatch s x.backtrack x.string).states s).matchHead = some C.matchCount := by
          simp [Arena.addMatch]
        have hnext : ((C.addMatch s x.backtrack x.string).matchRecords C.matchCount).next =
            (C.states s).matchHead := by simp [Arena.addMatch]
        rw [hhead]
        exact .cons (hnext ▸ hseg.frame hrec')
      · rcases List.mem_cons.mp hm with rfl | hm
        · exact ⟨h.matchCount, Nat.lt_succ_self _⟩
        · exact ⟨(hlt m hm).1, Nat.lt_succ_of_lt (hlt m hm).2⟩
      · rw [attachedAt_append_singleton, if_pos rfl, ← he, ← entries_frame hrec']
        simp [entries, Arena.addMatch]
    · have hsn : s ≠ st := fun e => hw (h.trie.inj _ _ st hx (e ▸ hs))
      refine ⟨ms, ?_, fun m hm => ⟨(hlt m hm).1, Nat.lt_succ_of_lt (hlt m hm).2⟩, ?_⟩
      · rw [hst s hsn]
        exact hseg.frame hrec'
      · rw [attachedAt_append_singleton, if_neg hw, entries_frame hrec', he]
  case fresh =>
    intro s hs hs' hnr
    have hsn : s ≠ st := fun e => hnr x.token (by rw [hr, e]; exact hx)
    rw [hst s hsn]
    exact h.fresh s hs hs' fun w hw => hnr w (by rw [hr]; exact hw)

theorem Extends.addTokens (string : YrString) {records : List TokenRecord} {m : Nat}
    (h : Extends A C root paths J)
    (hrec : ∀ r ∈ records, r.token.length ≤ maxToken ∧ ∃ p ∈ paths, r.token <+: p) :
    ((addTokens root string C m records).result = .success ∧
        Succeeds C (addTokens root string C m records).arena) ∨
      ((addTokens root string C m records).result = .insuficientMemory ∧
        ∃ k < records.length, Extends A (addTokens root string C m records).arena root paths
          (J ++ (records.take k).map (Insertion.ofRecord string))) := by
  induction records generalizing C m J with
  | nil => exact .inl ⟨rfl, Succeeds.refl C⟩
  | cons r rs ih =>
    obtain ⟨hlen, p, hp, hrp⟩ := hrec r (List.mem_cons_self _ _)
    obtain ⟨hG, hreach⟩ := addPath_spec h.trie (show reach C root [] = some root from rfl)
      (show ([] ++ r.token).length ≤ maxToken by simpa using hlen)
    have hpre : ∀ w, w <+: [] ++ r.token → w = [] ∨ ∃ p ∈ paths, w <+: p :=
      fun w hw => .inr ⟨p, hp, (List.nil_append r.token ▸ hw).trans hrp⟩
    simp only [AddString.addTokens]
    rcases hpath : addPath C root r.token with ⟨B, _ | st⟩
    · rw [hpath] at hG
      exact .inr ⟨rfl, 0, by simp, by simpa using h.grow hG hpre⟩
    rw [hpath, List.nil_append] at hG hreach
    dsimp only at hG hreach
    have hst := hreach st rfl
    have hB := (h.grow hG (List.nil_append r.token ▸ hpre)).allocate
    simp only [Arena.allocate]
    cases hok : B.ok B.calls
    · exact .inr ⟨rfl, 0, by simp, by simpa using hB⟩
    have hst' : reach B.allocate.2 root r.token = some st :=
      (reach_frame hG.trie (frame_allocate B) _).trans hst
    have hd : ((B.states st).depth : Int) + r.backtrack = (Insertion.ofRecord string r).backtrack := by
      simp [Insertion.ofRecord, hG.trie.depth _ _ hst]
    have hM := hB.addMatch (x := Insertion.ofRecord string r) hst'
    rw [← hd] at hM
    rcases ih hM fun r' hr' => hrec r' (List.mem_cons_of_mem _ hr') with ⟨hres, hsucc⟩ | ⟨hres, k, hk, hE⟩
    · refine .inl ⟨hres, ((succeeds_addPath (hpath ▸ rfl : (addPath C root r.token).2 = some st)).trans ?_).trans hsucc⟩
      rw [hpath]
      exact succeeds_addMatch (succeeds_allocate hok) _ _ _
    · refine .inr ⟨hres, k + 1, by simpa using hk, ?_⟩
      simpa [List.take_succ_cons, List.append_assoc] using hE

theorem yrAcAddString_outcome (tables : RegexTables) {automaton : AcAutomaton}
    (string : YrString) (hI : TrieInv A automaton.root) :
    ((yrAcAddString tables A automaton string).result = .success ∧
        Succeeds A (yrAcAddString tables A automaton string).arena) ∨
      ((yrAcAddString tables A automaton string).result = .insuficientMemory ∧
        ∃ k ≤ (tokenRecords tables string).length,
          Extends A (yrAcAddString tables A automaton string).arena automaton.root
            ((tokenRecords tables string).map (·.token))
            (((tokenRecords tables string).take k).map (Insertion.ofRecord string))) := by
  have h₁ : Extends A A.allocate.2 automaton.root ((tokenRecords tables string).map (·.token)) [] :=
    (Extends.start hI).allocate
  have hrec : ∀ r ∈ tokenRecords tables string, r.token.length ≤ maxToken ∧
      ∃ p ∈ (tokenRecords tables string).map (·.token), r.token <+: p := fun r hr =>
    ⟨yrAcGenTokens_length_le tables string r ((List.takeWhile_sublist _).subset hr),
      r.token, List.mem_map_of_mem _ hr, List.prefix_refl _⟩
  unfold AddString.yrAcAddString
  cases hok : A.ok A.calls
  · exact .inr ⟨by simp [Arena.allocate, hok], 0, Nat.zero_le _, by simpa [Arena.allocate, hok] using h₁⟩
  simp only [Arena.allocate, hok]
  rcases hr : tokenRecords tables string with _ | ⟨r, rs⟩
  · simp only [hr] at h₁
    cases hok' : A.ok (A.calls + 1)
    · exact .inr ⟨rfl, 0, le_rfl, h₁.allocate⟩
    · exact .inl ⟨rfl, succeeds_addMatch ((succeeds_allocate hok).trans (succeeds_allocate hok')) _ _ _⟩
  · rw [hr] at h₁ hrec
    rcases h₁.addTokens string (m := maxToken) hrec with ⟨hres, hs⟩ | ⟨hres, k, hk, hE⟩
    · exact .inl ⟨hres, (succeeds_allocate hok).trans hs⟩
    · exact .inr ⟨hres, k, hk.le, by simpa using hE⟩

/-- A call of `yr_ac_add_string` in which an allocation fails returns an error, keeps the trie and
the records it had, and has attached the records of an initial segment of its tokens. -/
theorem add_string_failure_keeps_automaton (tables : RegexTables) {automaton : AcAutomaton}
    (string : YrString) {R : AddResult} (hR : yrAcAddString tables A automaton string = R)
    (hI : TrieInv A automaton.root)
    (hfail : ∃ n, A.calls ≤ n ∧ n < R.arena.calls ∧ A.ok n = false) :
    R.result = .insuficientMemory ∧ TrieInv R.arena automaton.root ∧
    (∀ w s, reach A automaton.root w = some s →
      reach R.arena automaton.root w = some s ∧ (R.arena.states s).depth = (A.states s).depth ∧
        (R.arena.states s).failure = (A.states s).failure ∧
        ∀ c t, yrAcNextState A s c = some t → yrAcNextState R.arena s c = some t) ∧
    (∀ m < A.matchCount, R.arena.matchRecords m = A.matchRecords m) ∧
    (∀ w s, reach R.arena automaton.root w = some s → reach A automaton.root w = some s ∨
      ((∃ r ∈ tokenRecords tables string, w <+: r.token) ∧ A.stateCount ≤ s)) ∧
    ∃ k ≤ (tokenRecords tables string).length,
      (∀ w s, reach R.arena automaton.root w = some s → ∃ ms,
        Segment R.arena (if reach A automaton.root w = some s then (A.states s).matchHead else none)
          (R.arena.states s).matchHead ms ∧ (∀ m ∈ ms, A.matchCount ≤ m) ∧
        entries R.arena ms =
          attachedAt (((tokenRecords tables string).take k).map (Insertion.ofRecord string)) w) ∧
      ∀ s, A.stateCount ≤ s → s < R.arena.stateCount →
        (∀ w, reach R.arena automaton.root w ≠ some s) → (R.arena.states s).matchHead = none := by
  subst hR
  rcases yrAcAddString_outcome tables string hI with ⟨-, hs⟩ | ⟨hres, k, hk, hE⟩
  · obtain ⟨n, hn, hn', hok⟩ := hfail
    exact absurd (hs.2.2 n hn hn') (by simp [hok])
  refine ⟨hres, hE.trie, fun w s hs => ⟨hE.keep w s hs, ?_, hE.failure s (hI.lt w s hs),
    fun c t hc => ?_⟩, hE.records, fun w s hs => ?_, k, hk, fun w s hs => ?_, hE.fresh⟩
  · rw [hE.trie.depth w s (hE.keep w s hs), hI.depth w s hs]
  · have := hE.keep (w ++ [c]) t (by rw [reach_append_singleton, hs]; exact hc)
    rwa [reach_append_singleton, hE.keep w s hs] at this
  · refine (hE.new w s hs).imp_right fun ⟨⟨p, hp, hwp⟩, hle⟩ => ⟨?_, hle⟩
    obtain ⟨r, hr, rfl⟩ := List.mem_map.mp hp
    exact ⟨r, hr, hwp⟩
  · obtain ⟨ms, hseg, hlt, he⟩ := hE.lists w s hs
    exact ⟨ms, hseg, fun m hm => (hlt m hm).1, he⟩

/-- The automaton of `yr_ac_create_automaton` in an arena whose seventh allocation fails: adding
"ab" creates the state of "a" and fails at the state of "ab". -/
def failingArena : Arena := (yrAcCreateAutomaton (emptyArena fun n => n != 6)).1

def failedAdd : AddResult := yrAcAddString literalTables failingArena ⟨0⟩ abString

theorem add_string_failure_keeps_automaton_ab :
    yrAcAddString literalTables failingArena ⟨0⟩ abString = failedAdd ∧ TrieInv failingArena 0 ∧
    (∃ n, failingArena.calls ≤ n ∧ n < failedAdd.arena.calls ∧ failingArena.ok n = false) ∧
    failedAdd.result = .insuficientMemory ∧ TrieInv failedAdd.arena 0 ∧
    (∀ w s, reach failingArena 0 w = some s →
      reach failedAdd.arena 0 w = some s ∧ (failedAdd.arena.states s).depth = (failingArena.states s).depth ∧
        (failedAdd.arena.states s).failure = (failingArena.states s).failure ∧
        ∀ c t, yrAcNextState failingArena s c = some t → yrAcNextState failedAdd.arena s c = some t) ∧
    (∀ m < failingArena.matchCount, failedAdd.arena.matchRecords m = failingArena.matchRecords m) ∧
    (∀ w s, reach failedAdd.arena 0 w = some s → reach failingArena 0 w = some s ∨
      ((∃ r ∈ tokenRecords literalTables abString, w <+: r.token) ∧ failingArena.stateCount ≤ s)) ∧
    ∃ k ≤ (tokenRecords literalTables abString).length,
      (∀ w s, reach failedAdd.arena 0 w = some s → ∃ ms,
        Segment failedAdd.arena (if reach failingArena 0 w = some s then (failingArena.states s).matchHead else none)
          (failedAdd.arena.states s).matchHead ms ∧ (∀ m ∈ ms, failingArena.matchCount ≤ m) ∧
        entries failedAdd.arena ms =
          attachedAt (((tokenRecords literalTables abString).take k).map (Insertion.ofRecord abString)) w) ∧
      ∀ s, failingArena.stateCount ≤ s → s < failedAdd.arena.stateCount →
        (∀ w, reach failedAdd.arena 0 w ≠ some s) → (failedAdd.arena.states s).matchHead = none :=
  have hI : TrieInv failingArena 0 := TrieInv.create
    (show yrAcCreateAutomaton (emptyArena fun n => n != 6) = (failingArena, some ⟨0⟩) from rfl)
  have hfail : ∃ n, failingArena.calls ≤ n ∧ n < failedAdd.arena.calls ∧ failingArena.ok n = false :=
    ⟨6, by decide, by decide, rfl⟩
  ⟨rfl, hI, hfail, add_string_failure_keeps_automaton literalTables abString rfl hI hfail⟩

end YaraAhoCorasick.FailedAdd
