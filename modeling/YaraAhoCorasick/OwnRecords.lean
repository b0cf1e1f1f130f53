import YaraAhoCorasick.Trie
import YaraAhoCorasick.MatchList

namespace YaraAhoCorasick.OwnRecords

open YaraAhoCorasick.Tokens YaraAhoCorasick.Automaton YaraAhoCorasick.AddString
  YaraAhoCorasick.Trie YaraAhoCorasick.MatchList

variable {A B C : Arena} {root : Nat}

/-- A record of the list of the state of `w`: allocated, with backtrack 0 at the root and a
positive backtrack elsewhere. -/
def RecordOk (A : Arena) (w : List UInt8) (m : Nat) : Prop :=
  m < A.matchCount ∧
    if w = [] then (A.matchRecords m).backtrack = 0 else 0 < (A.matchRecords m).backtrack

/-- The output lists `yr_ac_add_string` leaves: the list of each state is finite, its records
are as `RecordOk` says, and no record is on the lists of two states. -/
structure OwnLists (A : Arena) (root : Nat) : Prop where
  chain : ∀ w s, reach A root w = some s →
    ∃ ms, Chain A (A.states s).matchHead ms ∧ ∀ m ∈ ms, RecordOk A w m
  disjoint : ∀ w v s t ms ns, reach A root w = some s → reach A root v = some t → s ≠ t →
    Chain A (A.states s).matchHead ms → Chain A (A.states t).matchHead ns → ∀ m ∈ ms, m ∉ ns

theorem OwnLists.of_chains (hO : OwnLists A root) (hreach : ∀ w t, reach B root w = some t →
      (∃ s, reach A root w = some s ∧ t = s) ∨ ∀ v s, reach A root v = some s → s ≠ t)
    (hchain : ∀ w s ms, reach A root w = some s → Chain A (A.states s).matchHead ms →
      Chain B (B.states s).matchHead ms ∧ ∀ m ∈ ms, RecordOk A w m → RecordOk B w m)
    (hnew : ∀ w t, reach B root w = some t → (∀ v s, reach A root v = some s → s ≠ t) →
      (B.states t).matchHead = none) :
    OwnLists B root := by
  have hlist : ∀ w t, reach B root w = some t → ∃ ms, Chain B (B.states t).matchHead ms ∧
      (∀ m ∈ ms, RecordOk B w m) ∧ ∀ v s ns, reach A root v = some s → s ≠ t →
        Chain A (A.states s).matchHead ns → ∀ m ∈ ms, m ∉ ns := by
    intro w t ht
    rcases hreach w t ht with ⟨s, hs, rfl⟩ | hfresh
    · obtain ⟨ms, hc, hok⟩ := hO.chain w t hs
      obtain ⟨hc', hok'⟩ := hchain w t ms hs hc
      exact ⟨ms, hc', fun m hm => hok' m hm (hok m hm),
        fun v s ns hv hst hn => hO.disjoint w v t s ms ns hs hv (Ne.symm hst) hc hn⟩
    · exact ⟨[], by rw [hnew w t ht hfresh]; exact .nil, by simp, by simp⟩
  refine ⟨fun w t ht => ?_, fun w v s t ms ns hs ht hst hms hns m hm hm' => ?_⟩
  · obtain ⟨ms, hc, hok, -⟩ := hlist w t ht
    exact ⟨ms, hc, hok⟩
  · obtain ⟨ms', hc, -, hd⟩ := hlist w s hs
    rw [hms.unique hc] at hm
    rcases hreach v t ht with ⟨t', ht', rfl⟩ | hfresh
    · obtain ⟨ns', hc', -⟩ := hO.chain v t ht'
      rw [hns.unique (hchain v t ns' ht' hc').1] at hm'
      exact hd v t ns' ht' (Ne.symm hst) hc' m hm hm'
    · rw [hnew v t ht hfresh] at hns
      simp at hns
      simp [hns] at hm'

theorem OwnLists.grow {path : List UInt8} (hO : OwnLists A root) (hI : TrieInv A root)
    (hG : PathGrowth A B root path) : OwnLists B root := by
  refine hO.of_chains (fun w t ht => ?_) (fun w s ms hs hc => ?_) (fun w t ht hfresh => ?_)
  · rcases hG.new w t ht with h | ⟨-, hlt⟩
    · exact .inl ⟨t, h, rfl⟩
    · exact .inr fun v s hs hst => absurd (hI.lt v s hs) (hst ▸ not_lt.mpr hlt)
  · have hrec : ∀ m ∈ ms, B.matchRecords m = A.matchRecords m := fun m _ => by
      rw [hG.grows.records]
    refine ⟨by rw [hG.grows.head s (hI.lt w s hs)]; exact hc.frame hrec, fun m _ h => ?_⟩
    simpa [RecordOk, hG.grows.records, hG.grows.matchCount] using h
  · rcases hG.new w t ht with h | ⟨-, hlt⟩
    · exact absurd rfl (hfresh w t h)
    · exact hG.grows.fresh t hlt (hG.trie.lt w t ht)

theorem OwnLists.allocate (hO : OwnLists A root) (hI : TrieInv A root) :
    OwnLists A.allocate.2 root :=
  hO.grow hI (show PathGrowth A A.allocate.2 root [] from
    PathGrowth.frame hI (frame_allocate A) (grows_allocate A))

theorem addMatch_chain {u w : List UInt8} {st s : Nat} {backtrack : Int} {string : YrString}
    (hO : OwnLists C root) (hI : TrieInv C root) (hu : reach C root u = some st)
    (hbt : if u = [] then backtrack = 0 else 0 < backtrack) (hs : reach C root w = some s) :
    ∃ ms, Chain (C.addMatch st backtrack string)
        ((C.addMatch st backtrack string).states s).matchHead ms ∧
      (∀ m ∈ ms, RecordOk (C.addMatch st backtrack string) w m) ∧
      ∃ ms₀, Chain C (C.states s).matchHead ms₀ ∧ (∀ m ∈ ms₀, RecordOk C w m) ∧
        ms = if s = st then C.matchCount :: ms₀ else ms₀ := by
  have hok : ∀ m, RecordOk C w m → RecordOk (C.addMatch st backtrack string) w m := by
    intro m ⟨hlt, hb⟩
    refine ⟨by simp [Arena.addMatch]; omega, ?_⟩
    simpa [Arena.addMatch, Function.update_noteq hlt.ne] using hb
  obtain ⟨ms₀, hc, hms⟩ := hO.chain w s hs
  have hc' := hc.frame (B := C.addMatch st backtrack string) fun m hm => by
    simp [Arena.addMatch, Function.update_noteq (hms m hm).1.ne]
  by_cases hst : s = st
  · subst hst
    obtain rfl := hI.inj w u s hs hu
    refine ⟨C.matchCount :: ms₀, ?_, fun m hm => ?_, ms₀, hc, hms, by simp⟩
    · have hhead : ((C.addMatch s backtrack string).states s).matchHead = some C.matchCount := by
        simp [Arena.addMatch]
      have hnext : ((C.addMatch s backtrack string).matchRecords C.matchCount).next =
          (C.states s).matchHead := by simp [Arena.addMatch]
      rw [hhead]
      exact .cons (hnext ▸ hc')
    · rcases List.mem_cons.mp hm with rfl | hm
      · exact ⟨by simp [Arena.addMatch], by simpa [Arena.addMatch] using hbt⟩
      · exact hok m (hms m hm)
  · refine ⟨ms₀, ?_, fun m hm => hok m (hms m hm), ms₀, hc, hms, by simp [hst]⟩
    simpa [Arena.addMatch, Function.update_noteq hst] using hc'

theorem OwnLists.addMatch {u : List UInt8} {st : Nat} {backtrack : Int} {string : YrString}
    (hO : OwnLists C root) (hI : TrieInv C root) (hu : reach C root u = some st)
    (hbt : if u = [] then backtrack = 0 else 0 < backtrack) :
    OwnLists (C.addMatch st backtrack string) root := by
  have hr := reach_frame hI (frame_addMatch C st backtrack string)
  refine ⟨fun w s hs => ?_, fun w v s t ms ns hs ht hst hms hns m hm hm' => ?_⟩
  · obtain ⟨ms, hc, hok', -⟩ := addMatch_chain hO hI hu hbt (hr w ▸ hs)
    exact ⟨ms, hc, hok'⟩
  · obtain ⟨ms', hc, -, ms₀, hc₀, hok₀, rfl⟩ := addMatch_chain hO hI hu hbt (hr w ▸ hs)
    obtain ⟨ns', hc', -, ns₀, hc₀', hok₀', rfl⟩ := addMatch_chain hO hI hu hbt (hr v ▸ ht)
    obtain rfl := hms.unique hc
    obtain rfl := hns.unique hc'
    have hdis := hO.disjoint w v s t ms₀ ns₀ (hr w ▸ hs) (hr v ▸ ht) hst hc₀ hc₀'
    have hnew₁ : C.matchCount ∉ ms₀ := fun h => lt_irrefl _ (hok₀ _ h).1
    have hnew₂ : C.matchCount ∉ ns₀ := fun h => lt_irrefl _ (hok₀' _ h).1
    by_cases h₁ : s = st <;> by_cases h₂ : t = st <;>
      simp only [h₁, h₂, ↓reduceIte, List.mem_cons] at hm hm'
    · exact hst (h₁.trans h₂.symm)
    · rcases hm with rfl | hm
      · exact hnew₂ hm'
      · exact hdis m hm hm'
    · rcases hm' with rfl | hm'
      · exact hnew₁ hm
      · exact hdis m hm hm'
    · exact hdis m hm hm'

/-- Every label of the trie of `A` leads to the same state in `B`, and the entries of its list
in `A` end its list in `B`. -/
def KeepsEntries (A B : Arena) (root : Nat) : Prop :=
  ∀ w s ms, reach A root w = some s → Chain A (A.states s).matchHead ms →
    reach B root w = some s ∧ ∃ ms', Chain B (B.states s).matchHead ms' ∧
      entries A ms <:+ entries B ms'

theorem keepsEntries_refl (A : Arena) (root : Nat) : KeepsEntries A A root :=
  fun _ _ ms hs hc => ⟨hs, ms, hc, List.suffix_refl _⟩

theorem KeepsEntries.trans (h₁ : KeepsEntries A B root) (h₂ : KeepsEntries B C root) :
    KeepsEntries A C root := fun w s ms hs hc =>
  let ⟨hs', ms', hc', he⟩ := h₁ w s ms hs hc
  let ⟨hs'', ms'', hc'', he'⟩ := h₂ w s ms' hs' hc'
  ⟨hs'', ms'', hc'', he.trans he'⟩

theorem keepsEntries_grow {path : List UInt8} (hI : TrieInv A root)
    (hG : PathGrowth A B root path) : KeepsEntries A B root := fun w s ms hs hc => by
  refine ⟨hG.keep w s hs, ms, ?_, by simp only [entries, hG.grows.records, List.suffix_refl]⟩
  rw [hG.grows.head s (hI.lt w s hs)]
  exact hc.frame fun _ _ => by rw [hG.grows.records]

theorem keepsEntries_allocate (hI : TrieInv A root) : KeepsEntries A A.allocate.2 root :=
  keepsEntries_grow hI (show PathGrowth A A.allocate.2 root [] from
    PathGrowth.frame hI (frame_allocate A) (grows_allocate A))

theorem keepsEntries_addMatch {u : List UInt8} {st : Nat} {backtrack : Int} {string : YrString}
    (hO : OwnLists C root) (hI : TrieInv C root) (hu : reach C root u = some st)
    (hbt : if u = [] then backtrack = 0 else 0 < backtrack) :
    KeepsEntries C (C.addMatch st backtrack string) root := fun w s ms hs hc => by
  obtain ⟨ms', hc', -, ms₀, hc₀, hok₀, rfl⟩ := addMatch_chain hO hI hu hbt hs
  obtain rfl := hc.unique hc₀
  have he : entries (C.addMatch st backtrack string) ms = entries C ms :=
    List.map_congr_left fun m hm => by
      simp [Arena.addMatch, Function.update_noteq (hok₀ m hm).1.ne]
  refine ⟨(reach_frame hI (frame_addMatch C st backtrack string) w).trans hs, _, hc', ?_⟩
  rw [← he]
  split_ifs
  · exact List.suffix_cons _ _
  · exact List.suffix_refl _

theorem OwnLists.addTokens_keeps {string : YrString} {records : List TokenRecord} {m : Nat}
    (hO : OwnLists A root) (hI : TrieInv A root) (hroot : reach A root [] = some root)
    (hrec : ∀ r ∈ records, r.token.length ≤ maxToken ∧ r.token ≠ [] ∧ 0 ≤ r.backtrack) :
    OwnLists (addTokens root string A m records).arena root ∧
      KeepsEntries A (addTokens root string A m records).arena root := by
  induction records generalizing A m with
  | nil => exact ⟨hO, keepsEntries_refl A root⟩
  | cons r rs ih =>
    obtain ⟨hlen, hne, hbt⟩ := hrec r (List.mem_cons_self _ _)
    obtain ⟨hG, hreach⟩ := addPath_spec hI hroot (show ([] ++ r.token).length ≤ maxToken by simpa)
    simp only [AddString.addTokens]
    rcases hpath : AddString.addPath A root r.token with ⟨B, _ | st⟩
    · simp only [hpath, List.nil_append] at hG
      exact ⟨hO.grow hI hG, keepsEntries_grow hI hG⟩
    simp only [hpath, List.nil_append] at hG hreach
    have hB := hO.grow hI hG
    have hK := (keepsEntries_grow hI hG).trans (keepsEntries_allocate hG.trie)
    simp only [Arena.allocate]
    cases hok : B.ok B.calls
    · exact ⟨hB.allocate hG.trie, hK⟩
    have hst : reach B.allocate.2 root r.token = some st :=
      (reach_frame hG.trie (frame_allocate B) _).trans (hreach st rfl)
    have hI' := hG.trie.frame (frame_allocate B)
    have hpos : if r.token = [] then ((B.states st).depth : Int) + r.backtrack = 0
        else 0 < ((B.states st).depth : Int) + r.backtrack := by
      rw [if_neg hne, hG.trie.depth _ _ (hreach st rfl)]
      have : 0 < r.token.length := List.length_pos.mpr hne
      omega
    have hF := frame_addMatch B.allocate.2 st ((B.states st).depth + r.backtrack) string
    obtain ⟨hO', hK'⟩ := ih ((hB.allocate hG.trie).addMatch hI' hst hpos) (hI'.frame hF)
      ((reach_frame hI' hF []).trans (reach_frame hG.trie (frame_allocate B) []))
      (fun r' hr' => hrec r' (List.mem_cons_of_mem _ hr'))
    exact ⟨hO', hK.trans ((keepsEntries_addMatch (hB.allocate hG.trie) hI' hst hpos).trans hK')⟩

theorem OwnLists.addTokens {string : YrString} {records : List TokenRecord} {m : Nat}
    (hO : OwnLists A root) (hI : TrieInv A root) (hroot : reach A root [] = some root)
    (hrec : ∀ r ∈ records, r.token.length ≤ maxToken ∧ r.token ≠ [] ∧ 0 ≤ r.backtrack) :
    OwnLists (addTokens root string A m records).arena root :=
  (hO.addTokens_keeps hI hroot hrec).1

theorem OwnLists.addString_keeps (tables : RegexTables) {automaton : AcAutomaton}
    (string : YrString) (hO : OwnLists A automaton.root) (hI : TrieInv A automaton.root) :
    OwnLists (yrAcAddString tables A automaton string).arena automaton.root ∧
      KeepsEntries A (yrAcAddString tables A automaton string).arena automaton.root := by
  have hO₁ := hO.allocate hI
  have hI₁ := hI.frame (frame_allocate A)
  have hK₁ := keepsEntries_allocate hI
  unfold AddString.yrAcAddString
  simp only [Arena.allocate]
  cases A.ok A.calls
  · exact ⟨hO₁, hK₁⟩
  rcases hr : tokenRecords tables string with _ | ⟨r, rs⟩
  · simp only
    have hK₂ := hK₁.trans (keepsEntries_allocate hI₁)
    cases A.ok (A.calls + 1)
    · exact ⟨hO₁.allocate hI₁, hK₂⟩
    · have hroot : reach (A.allocate.2.allocate.2) automaton.root [] = some automaton.root := rfl
      have hI₂ := hI₁.frame (frame_allocate _)
      exact ⟨(hO₁.allocate hI₁).addMatch hI₂ hroot (by simp),
        hK₂.trans (keepsEntries_addMatch (hO₁.allocate hI₁) hI₂ hroot (by simp))⟩
  · simp only
    refine (hO₁.addTokens_keeps hI₁ rfl fun r' hr' => ?_).imp_right hK₁.trans
    have hmem : r' ∈ tokenRecords tables string := hr ▸ hr'
    refine ⟨yrAcGenTokens_length_le tables string r' ((List.takeWhile_sublist _).subset hmem),
      fun h => ?_, yrAcGenTokens_backtrack_nonneg tables string maxToken r'
        ((List.takeWhile_sublist _).subset hmem)⟩
    simpa [h] using List.mem_takeWhile_imp hmem

theorem OwnLists.addString (tables : RegexTables) {automaton : AcAutomaton} (string : YrString)
    (hO : OwnLists A automaton.root) (hI : TrieInv A automaton.root) :
    OwnLists (yrAcAddString tables A automaton string).arena automaton.root :=
  (hO.addString_keeps tables string hI).1

theorem OwnLists.create {automaton : AcAutomaton}
    (h : yrAcCreateAutomaton A = (B, some automaton)) : OwnLists B automaton.root := by
  have hr := reach_yrAcCreateAutomaton h
  have hnil : ∀ w s, reach B automaton.root w = some s → (B.states s).matchHead = none := by
    intro w s hs
    rw [hr] at hs
    split_ifs at hs
    cases hs
    unfold Automaton.yrAcCreateAutomaton at h
    simp only [Arena.allocate] at h
    cases h1 : A.ok A.calls <;> cases h2 : A.ok (A.calls + 1) <;> simp [h1, h2] at h
    obtain ⟨rfl, rfl⟩ := h
    simp [Arena.newState]
  refine ⟨fun w s hs => ⟨[], by rw [hnil w s hs]; exact .nil, by simp⟩,
    fun w v s t ms ns hs _ _ hms _ m hm _ => ?_⟩
  rw [hnil w s hs] at hms
  simp at hms
  simp [hms] at hm

theorem Built.ownLists {tables : RegexTables} {automaton : AcAutomaton}
    (h : Built tables A automaton) : OwnLists A automaton.root := by
  induction h with
  | create h => exact OwnLists.create h
  | add string hb ih => exact ih.addString tables string hb.trieInv

end YaraAhoCorasick.OwnRecords
