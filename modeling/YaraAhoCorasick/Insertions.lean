import YaraAhoCorasick.Trie
import YaraAhoCorasick.MatchList

namespace YaraAhoCorasick.Insertions

open YaraAhoCorasick.Tokens YaraAhoCorasick.Automaton YaraAhoCorasick.AddString
  YaraAhoCorasick.Trie YaraAhoCorasick.MatchList

/-- A record `yr_ac_add_string` attaches: under the state of `token`, for `string`, with
`backtrack`. -/
structure Insertion where
  token : List UInt8
  string : YrString
  backtrack : Int

def Insertion.ofRecord (string : YrString) (r : TokenRecord) : Insertion :=
  ⟨r.token, string, r.token.length + r.backtrack⟩

/-- The records a successful `yr_ac_add_string` attaches for `string`: one per token record
before the first of length zero, or a single one at the root. -/
def insertions (tables : RegexTables) (string : YrString) : List Insertion :=
  match tokenRecords tables string with
  | [] => [⟨[], string, 0⟩]
  | records => records.map (Insertion.ofRecord string)

def attachedAt (I : List Insertion) (w : List UInt8) : List (YrString × Int) :=
  ((I.filter (·.token = w)).map fun x => (x.string, x.backtrack)).reverse

theorem attachedAt_append_singleton (I : List Insertion) (x : Insertion) (w : List UInt8) :
    attachedAt (I ++ [x]) w =
      if x.token = w then (x.string, x.backtrack) :: attachedAt I w else attachedAt I w := by
  by_cases h : x.token = w <;> simp [attachedAt, List.filter_append, h]

theorem attachedAt_perm {I J : List Insertion} (h : I.Perm J) (w : List UInt8) :
    (attachedAt I w).Perm (attachedAt J w) :=
  (List.reverse_perm _).trans (((h.filter _).map _).trans (List.reverse_perm _).symm)

variable {A B C : Arena} {root : Nat} {I : List Insertion}

def LabelsOf (A : Arena) (root : Nat) (I : List Insertion) : Prop :=
  ∀ w, (∃ s, reach A root w = some s) ↔ w = [] ∨ ∃ x ∈ I, w <+: x.token

def ChainsOf (A : Arena) (root : Nat) (I : List Insertion) : Prop :=
  ∀ w s, reach A root w = some s → ∃ ms, Chain A (A.states s).matchHead ms ∧
    (∀ m ∈ ms, m < A.matchCount) ∧ entries A ms = attachedAt I w

/-- The arena holds the trie of the insertions `I` and exactly their records. -/
structure Represents (A : Arena) (root : Nat) (I : List Insertion) : Prop where
  trie : TrieInv A root
  labels : LabelsOf A root I
  chains : ChainsOf A root I

theorem Represents.grow {x : Insertion} {st : Nat} (hR : Represents A root I)
    (hG : PathGrowth A B root x.token) (hx : reach B root x.token = some st) :
    LabelsOf B root (I ++ [x]) ∧ ChainsOf B root I := by
  refine ⟨fun w => ⟨?_, ?_⟩, fun w s hs => ?_⟩
  · rintro ⟨s, hs⟩
    rcases hG.new w s hs with h | ⟨hp, -⟩
    · rcases (hR.labels w).mp ⟨s, h⟩ with h | ⟨y, hy, hp⟩
      · exact .inl h
      · exact .inr ⟨y, List.mem_append_left _ hy, hp⟩
    · exact .inr ⟨x, by simp, hp⟩
  · rintro (rfl | ⟨y, hy, hp⟩)
    · exact ⟨root, rfl⟩
    rcases List.mem_append.mp hy with hy | hy
    · obtain ⟨s, hs⟩ := (hR.labels w).mpr (.inr ⟨y, hy, hp⟩)
      exact ⟨s, hG.keep w s hs⟩
    · obtain rfl := List.mem_singleton.mp hy
      obtain ⟨u, hu⟩ := hp
      exact reach_of_reach_append (hu ▸ hx)
  rcases hG.new w s hs with h | ⟨-, hfresh⟩
  · obtain ⟨ms, hc, hlt, he⟩ := hR.chains w s h
    have hrec : ∀ m ∈ ms, B.matchRecords m = A.matchRecords m := fun m _ => by
      rw [hG.grows.records]
    refine ⟨ms, ?_, fun m hm => hG.grows.matchCount ▸ hlt m hm, (entries_frame hrec).trans he⟩
    rw [hG.grows.head s (hR.trie.lt w s h)]
    exact hc.frame hrec
  · have hnone : ∀ y ∈ I, y.token ≠ w := by
      rintro y hy rfl
      obtain ⟨t, ht⟩ := (hR.labels _).mpr (.inr ⟨y, hy, List.prefix_refl _⟩)
      obtain rfl : t = s := Option.some.inj ((hG.keep _ _ ht).symm.trans hs)
      exact absurd (hR.trie.lt _ _ ht) (not_lt.mpr hfresh)
    refine ⟨[], ?_, by simp, ?_⟩
    · rw [hG.grows.fresh s hfresh (hG.trie.lt w s hs)]
      exact .nil
    · simpa [attachedAt, entries, List.filter_eq_nil_iff] using hnone

theorem Represents.addMatch {x : Insertion} {st : Nat} (hT : TrieInv C root)
    (hL : LabelsOf C root (I ++ [x])) (hC : ChainsOf C root I)
    (hx : reach C root x.token = some st) :
    Represents (C.addMatch st x.backtrack x.string) root (I ++ [x]) := by
  have hF := frame_addMatch C st x.backtrack x.string
  have hr := reach_frame hT hF
  refine ⟨hT.frame hF, fun w => by rw [hr]; exact hL w, fun w s hs => ?_⟩
  rw [hr] at hs
  obtain ⟨ms, hc, hlt, he⟩ := hC w s hs
  have hrec : ∀ m ∈ ms, (C.addMatch st x.backtrack x.string).matchRecords m = C.matchRecords m :=
    fun m hm => by simp [Arena.addMatch, Function.update_noteq (hlt m hm).ne]
  by_cases hw : x.token = w
  · subst hw
    obtain rfl : s = st := Option.some.inj (hs.symm.trans hx)
    refine ⟨C.matchCount :: ms, ?_, fun m hm => ?_, ?_⟩
    · have hnext : ((C.addMatch s x.backtrack x.string).matchRecords C.matchCount).next =
          (C.states s).matchHead := by simp [Arena.addMatch]
      have hhead : ((C.addMatch s x.backtrack x.string).states s).matchHead = some C.matchCount := by
        simp [Arena.addMatch]
      rw [hhead]
      exact .cons (hnext ▸ hc.frame hrec)
    · rcases List.mem_cons.mp hm with rfl | hm
      · simp [Arena.addMatch]
      · simpa [Arena.addMatch] using Nat.lt_succ_of_lt (hlt m hm)
    · rw [attachedAt_append_singleton, if_pos rfl, ← he, ← entries_frame hrec]
      simp [entries, Arena.addMatch]
  · have hsn : s ≠ st := fun h => hw (hT.inj _ _ st hx (h ▸ hs))
    refine ⟨ms, ?_, fun m hm => ?_, ?_⟩
    · simpa [Arena.addMatch, Function.update_noteq hsn] using hc.frame hrec
    · simpa [Arena.addMatch] using Nat.lt_succ_of_lt (hlt m hm)
    · rw [attachedAt_append_singleton, if_neg hw, entries_frame hrec, he]

theorem Represents.allocate (hR : Represents A root I) : Represents A.allocate.2 root I := by
  have hr := reach_frame hR.trie (frame_allocate A)
  refine ⟨hR.trie.frame (frame_allocate A), fun w => by rw [hr]; exact hR.labels w,
    fun w s hs => ?_⟩
  obtain ⟨ms, hc, hlt, he⟩ := hR.chains w s (hr w ▸ hs)
  exact ⟨ms, hc.frame fun _ _ => rfl, hlt, he⟩

theorem Represents.addTokens {string : YrString} {records : List TokenRecord} {m : Nat}
    (hR : Represents A root I) (hrec : ∀ r ∈ records, r.token.length ≤ maxToken)
    (h : (addTokens root string A m records).result = .success) :
    Represents (addTokens root string A m records).arena root
      (I ++ records.map (Insertion.ofRecord string)) := by
  induction records generalizing A m I with
  | nil => simpa using hR
  | cons r rs ih =>
    obtain ⟨hG, hreach⟩ := addPath_spec hR.trie (show reach A root [] = some root from rfl)
      (show ([] ++ r.token).length ≤ maxToken by simpa using hrec r (by simp))
    simp only [AddString.addTokens] at h ⊢
    rcases hpath : AddString.addPath A root r.token with ⟨B, _ | st⟩
    · simp [hpath] at h
    simp only [hpath, List.nil_append] at hG hreach
    simp only [hpath, Arena.allocate] at h ⊢
    cases hok : B.ok B.calls
    · simp [hok] at h
    simp only [hok] at h ⊢
    have hG' : PathGrowth A B.allocate.2 root r.token :=
      hG.trans (PathGrowth.frame hG.trie (frame_allocate B) (grows_allocate B)) (List.prefix_refl _)
    have hst : reach B.allocate.2 root r.token = some st :=
      (reach_frame hG.trie (frame_allocate B) _).trans (hreach st rfl)
    obtain ⟨hL, hC⟩ : LabelsOf B.allocate.2 root (I ++ [Insertion.ofRecord string r]) ∧
      ChainsOf B.allocate.2 root I := hR.grow hG' hst
    have hR' := Represents.addMatch hG'.trie hL hC hst
    have hd : ((B.states st).depth : Int) + r.backtrack = (Insertion.ofRecord string r).backtrack := by
      simp [Insertion.ofRecord, hG.trie.depth _ _ (hreach st rfl)]
    rw [List.map_cons, ← List.singleton_append, ← List.append_assoc]
    exact ih (hd ▸ hR') (fun r' hr' => hrec r' (List.mem_cons_of_mem _ hr')) h

theorem Represents.addString (tables : RegexTables) {automaton : AcAutomaton} (string : YrString)
    (hR : Represents A automaton.root I)
    (h : (yrAcAddString tables A automaton string).result = .success) :
    Represents (yrAcAddString tables A automaton string).arena automaton.root
      (I ++ insertions tables string) := by
  unfold AddString.yrAcAddString at h ⊢
  unfold insertions
  simp only [Arena.allocate] at h ⊢
  cases hok : A.ok A.calls
  · simp [hok] at h
  simp only [hok] at h ⊢
  have hR₁ : Represents A.allocate.2 automaton.root I := hR.allocate
  rcases hr : tokenRecords tables string with _ | ⟨r, rs⟩
  · simp only [hr] at h ⊢
    cases hok' : A.ok (A.calls + 1)
    · simp [hok'] at h
    simp only [hok']
    have hL : LabelsOf A.allocate.2.allocate.2 automaton.root (I ++ [⟨[], string, 0⟩]) := by
      intro w
      rw [hR₁.allocate.labels w]
      simp only [List.mem_append, List.mem_singleton, exists_eq_or_imp]
      constructor
      · rintro (h | ⟨y, hy, hp⟩)
        · exact .inl h
        · exact .inr ⟨y, .inl hy, hp⟩
      · rintro (h | ⟨y, hy | rfl, hp⟩)
        · exact .inl h
        · exact .inr ⟨y, hy, hp⟩
        · exact .inl (List.prefix_nil.mp hp)
    exact Represents.addMatch hR₁.allocate.trie hL hR₁.allocate.chains rfl
  · simp only [hr] at h ⊢
    exact hR₁.addTokens (fun r' hr' => yrAcGenTokens_length_le tables string r'
      ((List.takeWhile_sublist _).subset (hr ▸ hr'))) h

/-- The automata that `yr_ac_create_automaton` and then successful `yr_ac_add_string` calls
build, with the strings added, in order. -/
inductive Added (tables : RegexTables) : Arena → AcAutomaton → List YrString → Prop
  | create {A B : Arena} {automaton : AcAutomaton} :
      yrAcCreateAutomaton A = (B, some automaton) → Added tables B automaton []
  | add {A : Arena} {automaton : AcAutomaton} {strings : List YrString} (string : YrString) :
      Added tables A automaton strings →
        (yrAcAddString tables A automaton string).result = .success →
        Added tables (yrAcAddString tables A automaton string).arena automaton (strings ++ [string])

theorem Represents.create {automaton : AcAutomaton}
    (h : yrAcCreateAutomaton A = (B, some automaton)) : Represents B automaton.root [] := by
  have hr := reach_yrAcCreateAutomaton h
  refine ⟨TrieInv.create h, fun w => ?_, fun w s hs => ⟨[], ?_, by simp, rfl⟩⟩
  · rw [hr]
    split_ifs with hw <;> simp [hw]
  · rw [hr] at hs
    split_ifs at hs with hw
    cases hs
    unfold Automaton.yrAcCreateAutomaton at h
    simp only [Arena.allocate] at h
    cases h1 : A.ok A.calls <;> cases h2 : A.ok (A.calls + 1) <;> simp [h1, h2] at h
    obtain ⟨rfl, rfl⟩ := h
    simp [Arena.newState]

theorem Added.represents {tables : RegexTables} {automaton : AcAutomaton}
    {strings : List YrString} (h : Added tables A automaton strings) :
    Represents A automaton.root (strings.flatMap (insertions tables)) := by
  induction h with
  | create h => exact Represents.create h
  | add string _ hs ih => simpa using ih.addString tables string hs

theorem Added.built {tables : RegexTables} {automaton : AcAutomaton} {strings : List YrString}
    (h : Added tables A automaton strings) : Built tables A automaton := by
  induction h with
  | create h => exact .create h
  | add string _ _ ih => exact .add string ih

theorem addPath_of_reach {s t : Nat} {bytes : List UInt8} (h : reach A s bytes = some t) :
    addPath A s bytes = (A, some t) := by
  induction bytes generalizing s with
  | nil => simpa [addPath] using h
  | cons c w ih =>
    simp only [reach_cons] at h
    cases hn : yrAcNextState A s c with
    | none => simp [hn] at h
    | some u => simpa [addPath, hn] using ih (by simpa [hn] using h)

theorem addTokens_existing (string : YrString) {records : List TokenRecord} (m : Nat)
    (hI : TrieInv A root) (h : ∀ r ∈ records, ∃ t, reach A root r.token = some t) :
    Frame A (addTokens root string A m records).arena ∧
      (addTokens root string A m records).arena.stateCount = A.stateCount := by
  induction records generalizing A m with
  | nil => exact ⟨⟨le_rfl, fun _ _ => ⟨rfl, rfl⟩⟩, rfl⟩
  | cons r rs ih =>
    obtain ⟨t, ht⟩ := h r (List.mem_cons_self _ _)
    simp only [AddString.addTokens, addPath_of_reach ht, Arena.allocate]
    cases A.ok A.calls
    · exact ⟨frame_allocate A, rfl⟩
    · have hF := (frame_allocate A).trans (frame_addMatch A.allocate.2 t
        ((A.states t).depth + r.backtrack) string)
      obtain ⟨hF', hc⟩ := ih _ (hI.frame hF) fun r' hr' => by
        rw [reach_frame hI hF]; exact h r' (List.mem_cons_of_mem _ hr')
      exact ⟨hF.trans hF', hc⟩

theorem addString_existing (tables : RegexTables) {automaton : AcAutomaton} (string : YrString)
    (hI : TrieInv A automaton.root)
    (h : ∀ x ∈ insertions tables string, ∃ t, reach A automaton.root x.token = some t) :
    (yrAcAddString tables A automaton string).arena.stateCount = A.stateCount ∧
      ∀ w, reach (yrAcAddString tables A automaton string).arena automaton.root w =
        reach A automaton.root w := by
  suffices Frame A (yrAcAddString tables A automaton string).arena ∧
      (yrAcAddString tables A automaton string).arena.stateCount = A.stateCount from
    ⟨this.2, reach_frame hI this.1⟩
  unfold AddString.yrAcAddString
  simp only [Arena.allocate]
  cases A.ok A.calls
  · exact ⟨frame_allocate A, rfl⟩
  rcases hr : tokenRecords tables string with _ | ⟨r, rs⟩
  · simp only
    cases A.ok (A.calls + 1)
    · exact ⟨(frame_allocate A).trans (frame_allocate _), rfl⟩
    · exact ⟨((frame_allocate A).trans (frame_allocate _)).trans (frame_addMatch _ _ _ _), rfl⟩
  · have hx : ∀ r' ∈ r :: rs, ∃ t, reach A.allocate.2 automaton.root r'.token = some t :=
      fun r' hr' => by
        rw [reach_frame hI (frame_allocate A)]
        exact h (Insertion.ofRecord string r') (by simp only [insertions, hr]; exact List.mem_map_of_mem _ hr')
    obtain ⟨hF, hc⟩ := addTokens_existing string maxToken
      (hI.frame (frame_allocate A)) hx
    exact ⟨(frame_allocate A).trans hF, hc⟩

/-- A built automaton's states are its tokens' prefixes, each list the records attached under its
label; another order of the strings, or adding one of them again, adds no state. -/
theorem added_trie_characterized {tables : RegexTables} {automaton : AcAutomaton}
    {strings : List YrString} (h : Added tables A automaton strings) :
    (∀ w, (∃ s, reach A automaton.root w = some s) ↔
      w = [] ∨ ∃ x ∈ strings.flatMap (insertions tables), w <+: x.token) ∧
    (∀ w v s, reach A automaton.root w = some s → reach A automaton.root v = some s → w = v) ∧
    (∀ w s c, reach A automaton.root w = some s →
      yrAcNextState A s c = reach A automaton.root (w ++ [c])) ∧
    (∀ w s, reach A automaton.root w = some s → ∃ ms, Chain A (A.states s).matchHead ms ∧
      entries A ms = attachedAt (strings.flatMap (insertions tables)) w) ∧
    (∀ B automaton' strings', Added tables B automaton' strings' → strings'.Perm strings →
      ∀ w, ((∃ s, reach A automaton.root w = some s) ↔ ∃ t, reach B automaton'.root w = some t) ∧
        ∀ s t, reach A automaton.root w = some s → reach B automaton'.root w = some t →
          ∃ ms ns, Chain A (A.states s).matchHead ms ∧ Chain B (B.states t).matchHead ns ∧
            (entries A ms).Perm (entries B ns)) ∧
    (∀ string ∈ strings,
      (yrAcAddString tables A automaton string).arena.stateCount = A.stateCount ∧
      ∀ w, reach (yrAcAddString tables A automaton string).arena automaton.root w =
        reach A automaton.root w) := by
  have hR := h.represents
  refine ⟨hR.labels, hR.trie.inj, fun w s c hs => by rw [reach_append_singleton, hs]; rfl,
    fun w s hs => ?_, fun B automaton' strings' h' hp w => ?_, fun string hs => ?_⟩
  · obtain ⟨ms, hc, -, he⟩ := hR.chains w s hs
    exact ⟨ms, hc, he⟩
  · have hR' := h'.represents
    have hI := hp.flatMap_right (insertions tables)
    refine ⟨by rw [hR.labels w, hR'.labels w, exists_congr fun x => and_congr_left' hI.mem_iff],
      fun s t hs ht => ?_⟩
    obtain ⟨ms, hc, -, he⟩ := hR.chains w s hs
    obtain ⟨ns, hc', -, he'⟩ := hR'.chains w t ht
    exact ⟨ms, ns, hc, hc', he ▸ he' ▸ (attachedAt_perm hI w).symm⟩
  · refine addString_existing tables string hR.trie fun x hx => (hR.labels _).mpr ?_
    exact .inr ⟨x, List.mem_flatMap.mpr ⟨string, hs, hx⟩, List.prefix_refl _⟩

theorem added_trie_characterized_ab :
    Added literalTables abAutomaton ⟨0⟩ [abString] ∧
    (∀ w, (∃ s, reach abAutomaton 0 w = some s) ↔
      w = [] ∨ ∃ x ∈ [abString].flatMap (insertions literalTables), w <+: x.token) ∧
    (∀ w v s, reach abAutomaton 0 w = some s → reach abAutomaton 0 v = some s → w = v) ∧
    (∀ w s c, reach abAutomaton 0 w = some s →
      yrAcNextState abAutomaton s c = reach abAutomaton 0 (w ++ [c])) ∧
    (∀ w s, reach abAutomaton 0 w = some s →
      ∃ ms, Chain abAutomaton (abAutomaton.states s).matchHead ms ∧
      entries abAutomaton ms = attachedAt ([abString].flatMap (insertions literalTables)) w) ∧
    (∀ B automaton' strings', Added literalTables B automaton' strings' → strings'.Perm [abString] →
      ∀ w, ((∃ s, reach abAutomaton 0 w = some s) ↔ ∃ t, reach B automaton'.root w = some t) ∧
        ∀ s t, reach abAutomaton 0 w = some s → reach B automaton'.root w = some t →
          ∃ ms ns, Chain abAutomaton (abAutomaton.states s).matchHead ms ∧
            Chain B (B.states t).matchHead ns ∧
            (entries abAutomaton ms).Perm (entries B ns)) ∧
    (∀ string ∈ [abString],
      (yrAcAddString literalTables abAutomaton ⟨0⟩ string).arena.stateCount = abAutomaton.stateCount ∧
      ∀ w, reach (yrAcAddString literalTables abAutomaton ⟨0⟩ string).arena 0 w =
        reach abAutomaton 0 w) :=
  have hc : yrAcCreateAutomaton (emptyArena fun _ => true) =
      ((yrAcCreateAutomaton (emptyArena fun _ => true)).1, some ⟨0⟩) := rfl
  have hb : Added literalTables abAutomaton ⟨0⟩ [abString] := .add abString (.create hc) rfl
  ⟨hb, added_trie_characterized hb⟩

end YaraAhoCorasick.Insertions
