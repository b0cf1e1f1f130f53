import YaraAhoCorasick.FailureLinks
import YaraAhoCorasick.OwnRecords
import YaraAhoCorasick.Levels

namespace YaraAhoCorasick.FailureInvariant

open YaraAhoCorasick.Tokens YaraAhoCorasick.Automaton YaraAhoCorasick.AddString
  YaraAhoCorasick.FailureLinks YaraAhoCorasick.Trie YaraAhoCorasick.MatchList
  YaraAhoCorasick.OwnRecords YaraAhoCorasick.Levels

/-- `B` has the trie, the records and the allocation outcomes of `A` and has made at least its
calls: only failure links, list heads and `next` links may differ. -/
structure Keeps (A B : Arena) : Prop where
  stateCount : B.stateCount = A.stateCount
  depth : ∀ s, (B.states s).depth = (A.states s).depth
  transitions : ∀ s, (B.states s).transitions = (A.states s).transitions
  matchCount : B.matchCount = A.matchCount
  backtrack : ∀ m, (B.matchRecords m).backtrack = (A.matchRecords m).backtrack
  ok : B.ok = A.ok
  calls : A.calls ≤ B.calls

variable {A₀ A B C : Arena} {root : Nat}

theorem Keeps.refl (A : Arena) : Keeps A A :=
  ⟨rfl, fun _ => rfl, fun _ => rfl, rfl, fun _ => rfl, rfl, le_rfl⟩

theorem Keeps.trans (h₁ : Keeps A B) (h₂ : Keeps B C) : Keeps A C :=
  ⟨h₂.stateCount.trans h₁.stateCount, fun s => (h₂.depth s).trans (h₁.depth s),
    fun s => (h₂.transitions s).trans (h₁.transitions s), h₂.matchCount.trans h₁.matchCount,
    fun m => (h₂.backtrack m).trans (h₁.backtrack m), h₂.ok.trans h₁.ok, h₁.calls.trans h₂.calls⟩

@[simp] theorem setFailure_failure (A : Arena) (s t r : Nat) :
    ((setFailure A s t).states r).failure = if r = s then some t else (A.states r).failure := by
  by_cases h : r = s <;> simp [setFailure, Arena.setState, h]

@[simp] theorem setFailure_matchHead (A : Arena) (s t r : Nat) :
    ((setFailure A s t).states r).matchHead = (A.states r).matchHead := by
  by_cases h : r = s <;> simp [setFailure, Arena.setState, h]

@[simp] theorem setFailure_matchRecords (A : Arena) (s t : Nat) :
    (setFailure A s t).matchRecords = A.matchRecords := rfl

@[simp] theorem setMatchHead_failure (A : Arena) (s r : Nat) (target : Option Nat) :
    ((setMatchHead A s target).states r).failure = (A.states r).failure := by
  by_cases h : r = s <;> simp [setMatchHead, Arena.setState, h]

@[simp] theorem setMatchHead_matchHead (A : Arena) (s r : Nat) (target : Option Nat) :
    ((setMatchHead A s target).states r).matchHead =
      if r = s then target else (A.states r).matchHead := by
  by_cases h : r = s <;> simp [setMatchHead, Arena.setState, h]

@[simp] theorem setMatchHead_matchRecords (A : Arena) (s : Nat) (target : Option Nat) :
    (setMatchHead A s target).matchRecords = A.matchRecords := rfl

@[simp] theorem setNext_states (A : Arena) (m : Nat) (target : Option Nat) :
    (setNext A m target).states = A.states := rfl

@[simp] theorem setNext_matchRecords (A : Arena) (m r : Nat) (target : Option Nat) :
    (setNext A m target).matchRecords r =
      if r = m then { A.matchRecords m with next := target } else A.matchRecords r := by
  by_cases h : r = m <;> simp [setNext, Arena.setMatch, h]

theorem keeps_setFailure (A : Arena) (s t : Nat) : Keeps A (setFailure A s t) := by
  refine ⟨rfl, fun r => ?_, fun r => ?_, rfl, fun _ => rfl, rfl, le_rfl⟩ <;>
    by_cases h : r = s <;> simp [setFailure, Arena.setState, h]

theorem keeps_setMatchHead (A : Arena) (s : Nat) (target : Option Nat) :
    Keeps A (setMatchHead A s target) := by
  refine ⟨rfl, fun r => ?_, fun r => ?_, rfl, fun _ => rfl, rfl, le_rfl⟩ <;>
    by_cases h : r = s <;> simp [setMatchHead, Arena.setState, h]

theorem keeps_setNext (A : Arena) (m : Nat) (target : Option Nat) : Keeps A (setNext A m target) := by
  refine ⟨rfl, fun _ => rfl, fun _ => rfl, rfl, fun r => ?_, rfl, le_rfl⟩
  by_cases h : r = m <;> simp [h]

@[simp] theorem allocate_states (A : Arena) : A.allocate.2.states = A.states := rfl

theorem keeps_allocate (A : Arena) : Keeps A A.allocate.2 :=
  ⟨rfl, fun _ => rfl, fun _ => rfl, rfl, fun _ => rfl, rfl, Nat.le_succ _⟩

theorem Keeps.nextState (h : Keeps A B) (s : Nat) (c : UInt8) :
    yrAcNextState B s c = yrAcNextState A s c := by
  simp [yrAcNextState_eq, AcState.lookup, h.depth, h.transitions]

theorem Keeps.reach (h : Keeps A B) (s : Nat) (w : List UInt8) :
    YaraAhoCorasick.Automaton.reach B s w = YaraAhoCorasick.Automaton.reach A s w := by
  induction w generalizing s with
  | nil => rfl
  | cons c w ih => simp [reach_cons, h.nextState, ih]

theorem Keeps.children (h : Keeps A B) (s : Nat) :
    YaraAhoCorasick.Automaton.children B s = YaraAhoCorasick.Automaton.children A s := by
  simp only [children_eq, h.depth, h.transitions]

/-- No state of the trie has a failure link yet: `yr_ac_create_automaton` and
`_yr_ac_create_state` leave the field `NULL`, and `yr_ac_add_string` never writes it. -/
def FailuresUnset (A : Arena) (root : Nat) : Prop :=
  ∀ w s, reach A root w = some s → (A.states s).failure = none

@[simp] theorem addMatch_failure (A : Arena) (state : Nat) (backtrack : Int) (string : YrString)
    (s : Nat) : ((A.addMatch state backtrack string).states s).failure = (A.states s).failure := by
  by_cases h : s = state
  · subst h; simp [Arena.addMatch]
  · simp [Arena.addMatch, Function.update_noteq h]

section Unset

variable (hU : FailuresUnset A root) (hI : TrieInv A root)
include hU hI

theorem FailuresUnset.grow {path : List UInt8} (hG : PathGrowth A B root path) :
    FailuresUnset B root := by
  intro w s hs
  rcases hG.new w s hs with h | ⟨-, hlt⟩
  · rw [hG.grows.failure s (hI.lt w s h)]
    exact hU w s h
  · exact hG.grows.freshFailure s hlt (hG.trie.lt w s hs)

theorem FailuresUnset.allocate : FailuresUnset A.allocate.2 root :=
  hU.grow hI (show PathGrowth A A.allocate.2 root [] from
    PathGrowth.frame hI (frame_allocate A) (grows_allocate A))

theorem FailuresUnset.addMatch (state : Nat) (backtrack : Int) (string : YrString) :
    FailuresUnset (A.addMatch state backtrack string) root := fun w s hs => by
  rw [reach_frame hI (frame_addMatch A state backtrack string)] at hs
  rw [addMatch_failure]
  exact hU w s hs

theorem FailuresUnset.addTokens {string : YrString} {records : List TokenRecord} {m : Nat}
    (hroot : reach A root [] = some root) (hrec : ∀ r ∈ records, r.token.length ≤ maxToken) :
    FailuresUnset (addTokens root string A m records).arena root := by
  induction records generalizing A m with
  | nil => exact hU
  | cons r rs ih =>
    have hG := (addPath_spec hI hroot
      (show ([] ++ r.token).length ≤ maxToken by simpa using hrec r (by simp))).1
    have hU₁ := hU.grow hI hG
    simp only [AddString.addTokens]
    rcases hpath : AddString.addPath A root r.token with ⟨B, _ | st⟩
    · simpa [hpath] using hU₁
    · rw [hpath] at hU₁ hG
      have hI₁ := hG.trie.frame (frame_allocate B)
      simp only [Arena.allocate]
      cases B.ok B.calls
      · exact hU₁.allocate hG.trie
      · exact ih ((hU₁.allocate hG.trie).addMatch hI₁ _ _ _) (hI₁.frame (frame_addMatch _ _ _ _))
          (by simp) (fun r' hr' => hrec r' (by simp [hr']))

theorem FailuresUnset.addString (tables : RegexTables) (string : YrString) :
    FailuresUnset (yrAcAddString tables A ⟨root⟩ string).arena root := by
  have hU₁ := hU.allocate hI
  have hI₁ := hI.frame (frame_allocate A)
  unfold AddString.yrAcAddString
  simp only [Arena.allocate]
  cases A.ok A.calls
  · exact hU₁
  · dsimp only
    split
    · cases A.ok (A.calls + 1)
      · exact hU₁.allocate hI₁
      · exact (hU₁.allocate hI₁).addMatch (hI₁.frame (frame_allocate _)) _ _ _
    · exact hU₁.addTokens hI₁ rfl fun r hr => yrAcGenTokens_length_le tables string r
        ((List.takeWhile_sublist _).subset hr)

end Unset

theorem FailuresUnset.create {automaton : AcAutomaton}
    (h : yrAcCreateAutomaton A = (B, some automaton)) : FailuresUnset B automaton.root := by
  intro w s hs
  rw [reach_yrAcCreateAutomaton h] at hs
  split_ifs at hs
  cases hs
  unfold Automaton.yrAcCreateAutomaton at h
  simp only [Arena.allocate] at h
  cases h1 : A.ok A.calls <;> cases h2 : A.ok (A.calls + 1) <;> simp [h1, h2] at h
  obtain ⟨rfl, rfl⟩ := h
  simp [Arena.newState]

theorem Built.failuresUnset {tables : RegexTables} {automaton : AcAutomaton}
    (h : Built tables A automaton) : FailuresUnset A automaton.root := by
  induction h with
  | create h => exact FailuresUnset.create h
  | add string hb ih => exact ih.addString hb.trieInv tables string

def InTrie (A : Arena) (root v : Nat) : Prop := ∃ w, reach A root w = some v

def ownRecords (A : Arena) (s : Nat) : List Nat := walk A (A.matchCount + 1) (A.states s).matchHead

/-- The records the list of `v` is to hold before the root's: those of `v` and of the states
its failure links in `A` lead through, the root excluded; `fuel` bounds the links followed. -/
def failPath (A₀ A : Arena) (root : Nat) : Nat → Nat → List Nat
  | 0, _ => []
  | fuel + 1, v =>
    if v = root then []
    else ownRecords A₀ v ++
      match (A.states v).failure with
      | some u => failPath A₀ A root fuel u
      | none => []

def pathRecords (A₀ A : Arena) (root v : Nat) : List Nat :=
  failPath A₀ A root ((A₀.states v).depth + 1) v

/-- The one link of `v` the traversal writes: the `next` of its last own record, or its list
head when it has no record. -/
def slot (A₀ A : Arena) (v : Nat) : Option Nat :=
  match (ownRecords A₀ v).getLast? with
  | some m => (A.matchRecords m).next
  | none => (A.states v).matchHead

/-- The failure links set so far lead to states of the trie closer to the root, each the root
or a state whose link is set. -/
def FailOk (A₀ : Arena) (root : Nat) (A : Arena) : Prop :=
  ∀ v u, InTrie A₀ root v → v ≠ root → (A.states v).failure = some u →
    InTrie A₀ root u ∧ (A₀.states u).depth < (A₀.states v).depth ∧
      (u = root ∨ (A.states u).failure ≠ none)

/-- What holds of `A` while `yr_ac_create_failure_links` runs on `A₀` with `popped` taken: the
trie and records of `A₀`, and the `slot` of each state pointing at its failure target's list. -/
structure LinkInv (A₀ : Arena) (root : Nat) (popped : Nat → Prop) (A : Arena) : Prop where
  keeps : Keeps A₀ A
  rootFailure : (A.states root).failure = some root
  rootHead : (A.states root).matchHead = (A₀.states root).matchHead
  failure : FailOk A₀ root A
  rootRecords : ∀ m ∈ ownRecords A₀ root, A.matchRecords m = A₀.matchRecords m
  records : ∀ v, InTrie A₀ root v → v ≠ root →
    ∀ m ∈ (ownRecords A₀ v).dropLast, A.matchRecords m = A₀.matchRecords m
  heads : ∀ v, InTrie A₀ root v → ownRecords A₀ v ≠ [] →
    (A.states v).matchHead = (A₀.states v).matchHead
  unlinked : ∀ v, InTrie A₀ root v → v ≠ root → (A.states v).failure = none → slot A₀ A v = none
  slot : ∀ v u, InTrie A₀ root v → v ≠ root → (A.states v).failure = some u →
    slot A₀ A v = (pathRecords A₀ A root u ++ ownRecords A₀ root).head? ∨
      (slot A₀ A v = none ∧ pathRecords A₀ A root u = [] ∧ ownRecords A₀ root ≠ [] ∧ ¬ popped v)
  popped : ∀ v, popped v → InTrie A₀ root v ∧ v ≠ root ∧ (A.states v).failure ≠ none

/-- A state whose list still ends at its own last record: it waits for the root's records,
which the pop of any state whose list shares that record appends. -/
def Open (A₀ : Arena) (root : Nat) (popped : Nat → Prop) (A : Arena) (v : Nat) : Prop :=
  InTrie A₀ root v ∧ v ≠ root ∧ ownRecords A₀ v ≠ [] ∧ slot A₀ A v = none ∧ ¬ popped v ∧
    ownRecords A₀ root ≠ [] ∧ ∃ u, (A.states v).failure = some u ∧ pathRecords A₀ A root u = []

theorem inTrie_root : InTrie A root root := ⟨[], rfl⟩

@[simp] theorem slot_setFailure (A₀ A : Arena) (s t v : Nat) :
    slot A₀ (setFailure A s t) v = slot A₀ A v := by
  unfold slot
  rcases (ownRecords A₀ v).getLast? <;> simp

section Trie

variable (hI : TrieInv A₀ root)
include hI

theorem depth_pos {v : Nat} (hv : InTrie A₀ root v) (hvr : v ≠ root) : 0 < (A₀.states v).depth := by
  obtain ⟨w, hw⟩ := hv
  rw [hI.depth _ _ hw, List.length_pos]
  rintro rfl
  exact hvr (Option.some.inj hw).symm

theorem depth_le {v : Nat} (hv : InTrie A₀ root v) : (A₀.states v).depth ≤ maxToken := by
  obtain ⟨w, hw⟩ := hv
  rw [hI.depth _ _ hw]
  exact hI.bound w v hw

theorem child_inTrie {x t : Nat} (hx : InTrie A₀ root x) (ht : t ∈ children A₀ x) :
    InTrie A₀ root t ∧ t ≠ root ∧ (A₀.states t).depth = (A₀.states x).depth + 1 := by
  obtain ⟨w, hw⟩ := hx
  obtain ⟨c, hc⟩ := (mem_children hI hw t).mp ht
  have hrt : reach A₀ root (w ++ [c]) = some t := by rw [reach_append_singleton, hw]; exact hc
  refine ⟨⟨_, hrt⟩, ?_, by rw [hI.depth _ _ hrt, hI.depth _ _ hw, List.length_append,
    List.length_singleton]⟩
  rintro rfl
  simpa using hI.inj _ [] _ hrt rfl

theorem inTrie_of_mem_level {v k : Nat} (hv : v ∈ level A₀ root k) : InTrie A₀ root v :=
  let ⟨w, hw, _⟩ := (mem_level hI k v).mp hv
  ⟨w, hw⟩

theorem mem_level_iff {v : Nat} (hv : InTrie A₀ root v) (k : Nat) :
    v ∈ level A₀ root k ↔ (A₀.states v).depth = k := by
  obtain ⟨w, hw⟩ := hv
  rw [mem_level hI, hI.depth _ _ hw]
  constructor
  · rintro ⟨w', hw', rfl⟩
    rw [hI.inj _ _ _ hw hw']
  · rintro rfl
    exact ⟨w, hw, rfl⟩

theorem ne_root_of_mem_level {v k : Nat} (hk : 0 < k) (hv : v ∈ level A₀ root k) : v ≠ root := by
  rintro rfl
  rw [mem_level_iff hI inTrie_root, hI.depth [] _ rfl] at hv
  exact absurd hv (Nat.ne_of_lt hk)

end Trie

section Own

variable (hO : OwnLists A₀ root)
include hO

theorem own_chain {w : List UInt8} {v : Nat} (hv : reach A₀ root w = some v) :
    Chain A₀ (A₀.states v).matchHead (ownRecords A₀ v) ∧
      ∀ m ∈ ownRecords A₀ v, RecordOk A₀ w m := by
  obtain ⟨ms, hc, hok⟩ := hO.chain w v hv
  have hlen := hc.length_le fun m hm => (hok m hm).1
  rw [ownRecords, walk_of_chain hc _ (by omega)]
  exact ⟨hc, hok⟩

theorem own_disjoint {v v' m : Nat} (hv : InTrie A₀ root v) (hv' : InTrie A₀ root v')
    (hne : v ≠ v') (hm : m ∈ ownRecords A₀ v) : m ∉ ownRecords A₀ v' := by
  obtain ⟨w, hw⟩ := hv
  obtain ⟨w', hw'⟩ := hv'
  exact hO.disjoint w w' v v' _ _ hw hw' hne (own_chain hO hw).1 (own_chain hO hw').1 m hm

theorem own_nodup {v : Nat} (hv : InTrie A₀ root v) : (ownRecords A₀ v).Nodup := by
  obtain ⟨w, hw⟩ := hv
  exact (own_chain hO hw).1.nodup

theorem own_lt {v m : Nat} (hv : InTrie A₀ root v) (hm : m ∈ ownRecords A₀ v) :
    m < A₀.matchCount := by
  obtain ⟨w, hw⟩ := hv
  exact ((own_chain hO hw).2 m hm).1

theorem own_backtrack (hI : TrieInv A₀ root) {v m : Nat} (hv : InTrie A₀ root v)
    (hm : m ∈ ownRecords A₀ v) :
    if v = root then (A₀.matchRecords m).backtrack = 0 else 0 < (A₀.matchRecords m).backtrack := by
  obtain ⟨w, hw⟩ := hv
  have h := ((own_chain hO hw).2 m hm).2
  by_cases hr : v = root
  · subst hr
    obtain rfl : w = [] := hI.inj w [] v hw rfl
    simpa using h
  · have hw' : w ≠ [] := by rintro rfl; exact hr (Option.some.inj hw).symm
    simpa [hr, hw'] using h

theorem slot_start {v : Nat} (hv : InTrie A₀ root v) : slot A₀ A₀ v = none := by
  obtain ⟨w, hw⟩ := hv
  have hc := (own_chain hO hw).1
  unfold slot
  rcases hl : (ownRecords A₀ v).getLast? with _ | m
  · rw [List.getLast?_eq_none_iff] at hl
    simpa [hl] using hc.head_eq
  · have hne : ownRecords A₀ v ≠ [] := by rintro h; simp [h] at hl
    rw [List.getLast?_eq_getLast _ hne, Option.some.injEq] at hl
    rw [← hl]
    exact hc.last_next hne

end Own

section Paths

variable (hF : FailOk A₀ root A)
include hF

theorem failPath_fuel :
    ∀ n n' v, (v = root ∨ InTrie A₀ root v) → (A₀.states v).depth < n →
      (A₀.states v).depth < n' → failPath A₀ A root n v = failPath A₀ A root n' v
  | 0, _, _, _, h, _ => absurd h (Nat.not_lt_zero _)
  | _ + 1, 0, _, _, _, h => absurd h (Nat.not_lt_zero _)
  | n + 1, n' + 1, v, hv, h, h' => by
    simp only [failPath]
    split_ifs with hr
    · rfl
    congr 1
    cases hf : (A.states v).failure with
    | none => rfl
    | some u =>
      have hu := hF v u (hv.resolve_left hr) hr hf
      exact failPath_fuel n n' u (.inr hu.1) (by omega) (by omega)

theorem pathRecords_of_failure {v u : Nat} (hv : InTrie A₀ root v) (hr : v ≠ root)
    (hf : (A.states v).failure = some u) :
    pathRecords A₀ A root v = ownRecords A₀ v ++ pathRecords A₀ A root u := by
  have hu := hF v u hv hr hf
  have h₁ : pathRecords A₀ A root v =
      ownRecords A₀ v ++ failPath A₀ A root (A₀.states v).depth u := by
    simp only [pathRecords, failPath.eq_2, hr, ↓reduceIte, hf]
  rw [h₁, failPath_fuel hF _ ((A₀.states u).depth + 1) u (.inr hu.1) hu.2.1 (Nat.lt_succ_self _)]
  rfl

theorem failPath_congr {t : Nat} (htr : t ≠ root) (ht : (A.states t).failure = none)
    (hB : ∀ s, s ≠ t → (B.states s).failure = (A.states s).failure) :
    ∀ n v, (v = root ∨ InTrie A₀ root v) → v ≠ t →
      failPath A₀ B root n v = failPath A₀ A root n v
  | 0, _, _, _ => rfl
  | n + 1, v, hv, hvt => by
    simp only [failPath, hB v hvt]
    split_ifs with hr
    · rfl
    congr 1
    cases hf : (A.states v).failure with
    | none => rfl
    | some u =>
      obtain ⟨hu, -, hu'⟩ := hF v u (hv.resolve_left hr) hr hf
      refine failPath_congr htr ht hB n u (.inr hu) ?_
      rintro rfl
      rcases hu' with h | h
      · exact htr h
      · exact h ht

theorem failPath_mem {m : Nat} :
    ∀ n v, (v = root ∨ InTrie A₀ root v) → m ∈ failPath A₀ A root n v →
      ∃ v', InTrie A₀ root v' ∧ v' ≠ root ∧ m ∈ ownRecords A₀ v'
  | 0, _, _, hm => by simp [failPath] at hm
  | n + 1, v, hv, hm => by
    simp only [failPath] at hm
    split_ifs at hm with hr
    · simp at hm
    rcases List.mem_append.mp hm with hm | hm
    · exact ⟨v, hv.resolve_left hr, hr, hm⟩
    · cases hf : (A.states v).failure with
      | none => simp [hf] at hm
      | some u =>
        rw [hf] at hm
        exact failPath_mem n u (.inr (hF v u (hv.resolve_left hr) hr hf).1) hm

end Paths

theorem failPath_eq (hB : ∀ s, (B.states s).failure = (A.states s).failure) (n v : Nat) :
    failPath A₀ B root n v = failPath A₀ A root n v := by
  induction n generalizing v with
  | zero => rfl
  | succ n ih => simp only [failPath, hB v, ih]

theorem pathRecords_root (A₀ A : Arena) (root : Nat) : pathRecords A₀ A root root = [] := by
  simp [pathRecords, failPath]

theorem pathRecords_of_none {v : Nat} (hr : v ≠ root) (hf : (A.states v).failure = none) :
    pathRecords A₀ A root v = ownRecords A₀ v := by
  simp [pathRecords, failPath, hr, hf]

section Inv

variable {popped : Nat → Prop} (hO : OwnLists A₀ root) (h : LinkInv A₀ root popped A)
include hO h

theorem LinkInv.chain_root : Chain A (A.states root).matchHead (ownRecords A₀ root) := by
  rw [h.rootHead]
  exact (own_chain hO (show reach A₀ root [] = some root from rfl)).1.frame h.rootRecords

theorem LinkInv.rootHead_eq : (A.states root).matchHead = (ownRecords A₀ root).head? := by
  rw [h.rootHead, (own_chain hO (show reach A₀ root [] = some root from rfl)).1.head_eq]

theorem LinkInv.path_lt {u m : Nat} (hu : u = root ∨ InTrie A₀ root u)
    (hm : m ∈ pathRecords A₀ A root u ++ ownRecords A₀ root) : m < A.matchCount := by
  rw [h.keeps.matchCount]
  rcases List.mem_append.mp hm with hm | hm
  · obtain ⟨v, hv, -, hm⟩ := failPath_mem h.failure _ u hu hm
    exact own_lt hO hv hm
  · exact own_lt hO inTrie_root hm

theorem LinkInv.head_eq {v : Nat} (hv : InTrie A₀ root v) (hr : v ≠ root)
    (hl : (A.states v).failure ≠ none) :
    (A.states v).matchHead = (pathRecords A₀ A root v ++ ownRecords A₀ root).head? ∨
      ((A.states v).matchHead = none ∧ pathRecords A₀ A root v = [] ∧
        ownRecords A₀ root ≠ [] ∧ ¬ popped v) := by
  obtain ⟨u, hu⟩ := Option.ne_none_iff_exists'.mp hl
  rw [pathRecords_of_failure h.failure hv hr hu]
  by_cases hown : ownRecords A₀ v = []
  · have hs := h.slot v u hv hr hu
    simpa [FailureInvariant.slot, hown] using hs
  · left
    obtain ⟨w, hw⟩ := hv
    rw [h.heads v ⟨w, hw⟩ hown, (own_chain hO hw).1.head_eq, List.append_assoc,
      List.head?_append_of_ne_nil _ hown]

theorem LinkInv.chain_path :
    ∀ n u, (A₀.states u).depth < n → (u = root ∨ InTrie A₀ root u ∧ (A.states u).failure ≠ none) →
      ∃ L, Chain A (pathRecords A₀ A root u ++ ownRecords A₀ root).head? L ∧
        (L = pathRecords A₀ A root u ++ ownRecords A₀ root ∨
          (L = pathRecords A₀ A root u ∧
            ∃ v, Open A₀ root popped A v ∧ L.getLast? = (ownRecords A₀ v).getLast?))
  | 0, _, hn, _ => absurd hn (Nat.not_lt_zero _)
  | n + 1, u, hn, hu => by
    by_cases hr : u = root
    · rw [hr]
      refine ⟨ownRecords A₀ root, ?_, .inl (by rw [pathRecords_root, List.nil_append])⟩
      rw [pathRecords_root, List.nil_append,
        ← (own_chain hO (show reach A₀ root [] = some root from rfl)).1.head_eq, ← h.rootHead]
      exact h.chain_root hO
    obtain ⟨hu, hl⟩ := hu.resolve_left hr
    obtain ⟨u', hu'⟩ := Option.ne_none_iff_exists'.mp hl
    obtain ⟨hin', hd', hl'⟩ := h.failure u u' hu hr hu'
    have ih := LinkInv.chain_path n u' (by omega) (hl'.imp_right fun hl' => ⟨hin', hl'⟩)
    rw [pathRecords_of_failure h.failure hu hr hu']
    by_cases hown : ownRecords A₀ u = []
    · simpa [hown] using ih
    obtain ⟨w, hw⟩ := hu
    have hc := (own_chain hO hw).1
    have hhead : (ownRecords A₀ u ++ pathRecords A₀ A root u' ++ ownRecords A₀ root).head? =
        (A₀.states u).matchHead := by
      rw [hc.head_eq, List.append_assoc, List.head?_append_of_ne_nil _ hown]
    have hslot : FailureInvariant.slot A₀ A u = (A.matchRecords ((ownRecords A₀ u).getLast hown)).next := by
      simp [FailureInvariant.slot, List.getLast?_eq_getLast _ hown]
    rw [hhead]
    rcases h.slot u u' ⟨w, hw⟩ hr hu' with hgood | ⟨hnone, hP, hR, hpop⟩
    · obtain ⟨L', hL', hcases⟩ := ih
      refine ⟨ownRecords A₀ u ++ L',
        hc.append hown (h.records u ⟨w, hw⟩ hr) (hslot.symm.trans hgood) hL', ?_⟩
      rcases hcases with rfl | ⟨rfl, v, hv, hlast⟩
      · exact .inl (List.append_assoc _ _ _).symm
      · refine .inr ⟨rfl, v, hv, ?_⟩
        have hne : pathRecords A₀ A root u' ≠ [] := by
          intro h0
          rw [h0, List.getLast?_nil, eq_comm, List.getLast?_eq_none_iff] at hlast
          exact hv.2.2.1 hlast
        rw [List.getLast?_append_of_ne_nil _ hne, hlast]
    · refine ⟨ownRecords A₀ u,
        by simpa using hc.append hown (h.records u ⟨w, hw⟩ hr) (hslot.symm.trans hnone) .nil,
        .inr ⟨by rw [hP, List.append_nil], u, ⟨⟨w, hw⟩, hr, hown, hnone, hpop, hR, u', hu', hP⟩, rfl⟩⟩

end Inv

end YaraAhoCorasick.FailureInvariant
