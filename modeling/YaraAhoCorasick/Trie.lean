import YaraAhoCorasick.AddString

namespace YaraAhoCorasick.Trie

open YaraAhoCorasick.Tokens YaraAhoCorasick.Automaton YaraAhoCorasick.AddString

variable {A B : Arena} {root : Nat}

/-- The states reachable from `root` form a trie of depth at most `MAX_TOKEN`, each reached by one
word of its depth's length, in the layout its depth selects. -/
structure TrieInv (A : Arena) (root : Nat) : Prop where
  lt : ∀ w s, reach A root w = some s → s < A.stateCount
  depth : ∀ w s, reach A root w = some s → (A.states s).depth = w.length
  layout : ∀ w s, reach A root w = some s → (A.states s).LayoutOk
  nodup : ∀ w s, reach A root w = some s → ((A.states s).transitions.listOf.map (·.input)).Nodup
  inj : ∀ w v s, reach A root w = some s → reach A root v = some s → w = v
  bound : ∀ w s, reach A root w = some s → w.length ≤ maxToken

/-- `B` keeps the depth and the transitions of every state allocated in `A`. -/
def Frame (A B : Arena) : Prop :=
  A.stateCount ≤ B.stateCount ∧ ∀ s, s < A.stateCount →
    (B.states s).depth = (A.states s).depth ∧ (B.states s).transitions = (A.states s).transitions

theorem Frame.trans {C : Arena} (h₁ : Frame A B) (h₂ : Frame B C) : Frame A C :=
  ⟨h₁.1.trans h₂.1, fun s hs => by
    obtain ⟨hd, ht⟩ := h₁.2 s hs
    obtain ⟨hd', ht'⟩ := h₂.2 s (lt_of_lt_of_le hs h₁.1)
    exact ⟨hd'.trans hd, ht'.trans ht⟩⟩

theorem reach_frame (hI : TrieInv A root) (hF : Frame A B) (w : List UInt8) :
    reach B root w = reach A root w :=
  reach_eq_of_lookup_eq (fun v s hs c => by
    obtain ⟨hd, ht⟩ := hF.2 s (hI.lt v s hs)
    simp [yrAcNextState_eq, AcState.lookup, hd, ht]) w

theorem TrieInv.frame (hI : TrieInv A root) (hF : Frame A B) : TrieInv B root := by
  have hr := reach_frame hI hF
  refine ⟨fun w s h => ?_, fun w s h => ?_, fun w s h => ?_, fun w s h => ?_,
    fun w v s h h' => hI.inj w v s (hr w ▸ h) (hr v ▸ h'), fun w s h => hI.bound w s (hr w ▸ h)⟩
  · exact lt_of_lt_of_le (hI.lt w s (hr w ▸ h)) hF.1
  · rw [(hF.2 s (hI.lt w s (hr w ▸ h))).1]; exact hI.depth w s (hr w ▸ h)
  · have := hI.layout w s (hr w ▸ h)
    obtain ⟨hd, ht⟩ := hF.2 s (hI.lt w s (hr w ▸ h))
    unfold AcState.LayoutOk at this ⊢
    rwa [hd, ht]
  · rw [(hF.2 s (hI.lt w s (hr w ▸ h))).2]; exact hI.nodup w s (hr w ▸ h)

theorem frame_allocate (A : Arena) : Frame A A.allocate.2 :=
  ⟨le_rfl, fun _ _ => ⟨rfl, rfl⟩⟩

theorem frame_addMatch (A : Arena) (state : Nat) (backtrack : Int) (string : YrString) :
    Frame A (A.addMatch state backtrack string) := by
  refine ⟨le_rfl, fun s _ => ?_⟩
  by_cases h : s = state
  · subst h; simp [Arena.addMatch]
  · simp [Arena.addMatch, Function.update_noteq h]

theorem frame_createState_none {p : Nat} {b : UInt8} (h : yrAcCreateState A p b = (B, none)) :
    Frame A B := by
  obtain ⟨hc, -, -, -, hs, -⟩ := yrAcCreateState_none h
  exact ⟨hc, fun s hs' => by rw [hs s hs']; exact ⟨rfl, rfl⟩⟩

section CreateState

variable {u : List UInt8} {p n : Nat} {b : UInt8}

theorem lookup_createState (hI : TrieInv A root) (hu : reach A root u = some p)
    (h : yrAcCreateState A p b = (B, some n)) (s : Nat) (c : UInt8) :
    yrAcNextState B s c =
      if s = n then none else if s = p ∧ c = b then some n else yrAcNextState A s c := by
  have hp := hI.lt u p hu
  obtain ⟨rfl, -, -, -, -, hst⟩ := yrAcCreateState_some hp h
  simp only [yrAcNextState_eq, hst]
  by_cases hsn : s = A.stateCount
  · subst hsn; simp [lookup_fresh]
  · by_cases hsp : s = p
    · subst hsp
      simp [hsn, lookup_installTransition _ (hI.layout u s hu)]
    · simp [hsn, hsp]

theorem reach_createState_of_reach (hI : TrieInv A root) (hu : reach A root u = some p)
    (hnone : yrAcNextState A p b = none) (h : yrAcCreateState A p b = (B, some n))
    {w : List UInt8} {t : Nat} (hw : reach A root w = some t) : reach B root w = some t := by
  suffices ∀ w v s, reach A root v = some s → reach A s w = some t → reach B s w = some t from
    this w [] root rfl hw
  intro w
  induction w with
  | nil => intro _ _ _ h; exact h
  | cons c w ih =>
    intro v s hs hw
    simp only [reach_cons] at hw ⊢
    cases ht : yrAcNextState A s c with
    | none => simp [ht] at hw
    | some t' =>
      have hsn : s ≠ n := by
        have := hI.lt v s hs
        have := (yrAcCreateState_some (hI.lt u p hu) h).1
        omega
      have hpb : ¬ (s = p ∧ c = b) := by
        rintro ⟨rfl, rfl⟩; simp [hnone] at ht
      rw [lookup_createState hI hu h, if_neg hsn, if_neg hpb, ht]
      rw [ht] at hw
      exact ih (v ++ [c]) t' (by rw [reach_append_singleton, hs]; exact ht) hw

theorem reach_createState_cases (hI : TrieInv A root) (hu : reach A root u = some p)
    (h : yrAcCreateState A p b = (B, some n))
    {w : List UInt8} {t : Nat} (hw : reach B root w = some t) :
    reach A root w = some t ∨ (w = u ++ [b] ∧ t = n) := by
  suffices ∀ w v s, reach A root v = some s → reach B s w = some t →
      reach A s w = some t ∨ (v ++ w = u ++ [b] ∧ t = n) from this w [] root rfl hw
  intro w
  induction w with
  | nil => intro _ _ _ h; exact .inl h
  | cons c w ih =>
    intro v s hs hw
    simp only [reach_cons] at hw ⊢
    rw [lookup_createState hI hu h] at hw
    have hsn : s ≠ n := by
      have := hI.lt v s hs
      have := (yrAcCreateState_some (hI.lt u p hu) h).1
      omega
    rw [if_neg hsn] at hw
    split_ifs at hw with hpb
    · obtain ⟨rfl, rfl⟩ := hpb
      have hv := hI.inj v u s hs hu
      subst hv
      cases w with
      | nil => simp at hw; exact .inr ⟨rfl, hw.symm⟩
      | cons c' w => simp [lookup_createState hI hu h] at hw
    · cases ht : yrAcNextState A s c with
      | none => simp [ht] at hw
      | some t' =>
        rw [ht] at hw
        rcases ih (v ++ [c]) t' (by rw [reach_append_singleton, hs]; exact ht) hw with h' | h'
        · exact .inl (by simpa [ht] using h')
        · exact .inr ⟨by simpa using h'.1, h'.2⟩

theorem reach_createState (hI : TrieInv A root) (hu : reach A root u = some p)
    (hnone : yrAcNextState A p b = none) (h : yrAcCreateState A p b = (B, some n))
    (w : List UInt8) : reach B root w = if w = u ++ [b] then some n else reach A root w := by
  split_ifs with hw
  · subst hw
    rw [reach_append_singleton, reach_createState_of_reach hI hu hnone h hu]
    simp [lookup_createState hI hu h, (yrAcCreateState_some (hI.lt u p hu) h).1,
      Nat.ne_of_lt (hI.lt u p hu)]
  · cases hA : reach A root w with
    | some t => exact reach_createState_of_reach hI hu hnone h hA
    | none =>
      cases hB : reach B root w with
      | none => rfl
      | some t => simpa [hA, hw] using reach_createState_cases hI hu h hB

theorem TrieInv.createState (hI : TrieInv A root) (hu : reach A root u = some p)
    (hnone : yrAcNextState A p b = none) (hlen : u.length < maxToken)
    (h : yrAcCreateState A p b = (B, some n)) : TrieInv B root := by
  have hp := hI.lt u p hu
  obtain ⟨rfl, hcount, -, -, -, hst⟩ := yrAcCreateState_some hp h
  have hr := reach_createState hI hu hnone h
  have hlay := hI.layout u p hu
  have hold : ∀ w s, reach A root w = some s →
      (B.states s).depth = (A.states s).depth ∧ (B.states s).LayoutOk ∧
      ((B.states s).transitions.listOf.map (·.input)).Nodup := by
    intro w s hs
    have hsn : s ≠ A.stateCount := Nat.ne_of_lt (hI.lt w s hs)
    by_cases hsp : s = p
    · subst hsp
      simp only [hst, Function.update_apply, hsn, if_true, if_false]
      exact ⟨trivial, by simpa [AcState.LayoutOk] using hlay,
        nodup_installTransition _ hlay _ (hI.nodup w s hs) hnone⟩
    · simpa [hst, hsn, hsp] using ⟨hI.layout w s hs, hI.nodup w s hs⟩
  have hnew : (B.states A.stateCount).depth = (u ++ [b]).length ∧ (B.states A.stateCount).LayoutOk ∧
      ((B.states A.stateCount).transitions.listOf.map (·.input)).Nodup := by
    simp only [hst, Function.update_same]
    exact ⟨by simp [hI.depth u p hu], freshTransitions_ok _⟩
  have hcases : ∀ w s, reach B root w = some s →
      (w = u ++ [b] ∧ s = A.stateCount) ∨ reach A root w = some s := by
    intro w s hs
    rw [hr] at hs
    split_ifs at hs with hw
    · exact .inl ⟨hw, (Option.some.inj hs).symm⟩
    · exact .inr hs
  refine ⟨fun w s hs => ?_, fun w s hs => ?_, fun w s hs => ?_, fun w s hs => ?_,
    fun w v s hw hv => ?_, fun w s hs => ?_⟩
  · rcases hcases w s hs with ⟨-, rfl⟩ | hs
    · omega
    · have := hI.lt w s hs
      omega
  · rcases hcases w s hs with ⟨rfl, rfl⟩ | hs
    · exact hnew.1
    · rw [(hold w s hs).1, hI.depth w s hs]
  · rcases hcases w s hs with ⟨rfl, rfl⟩ | hs
    · exact hnew.2.1
    · exact (hold w s hs).2.1
  · rcases hcases w s hs with ⟨rfl, rfl⟩ | hs
    · exact hnew.2.2
    · exact (hold w s hs).2.2
  · rcases hcases w s hw with ⟨rfl, rfl⟩ | hw
    · rcases hcases v _ hv with ⟨rfl, -⟩ | hv
      · rfl
      · exact absurd (hI.lt v _ hv) (lt_irrefl _)
    · rcases hcases v s hv with ⟨-, rfl⟩ | hv
      · exact absurd (hI.lt w _ hw) (lt_irrefl _)
      · exact hI.inj w v s hw hv
  · rcases hcases w s hs with ⟨rfl, rfl⟩ | hs
    · simpa using hlen
    · exact hI.bound w s hs

end CreateState

/-- `B` allocates states after those of `A` and touches no match record: the states of
`A` keep their chains and failure links, and the new states have none. -/
structure Grows (A B : Arena) : Prop where
  count : A.stateCount ≤ B.stateCount
  records : B.matchRecords = A.matchRecords
  matchCount : B.matchCount = A.matchCount
  head : ∀ s, s < A.stateCount → (B.states s).matchHead = (A.states s).matchHead
  fresh : ∀ s, A.stateCount ≤ s → s < B.stateCount → (B.states s).matchHead = none
  failure : ∀ s, s < A.stateCount → (B.states s).failure = (A.states s).failure
  freshFailure : ∀ s, A.stateCount ≤ s → s < B.stateCount → (B.states s).failure = none

theorem Grows.refl (A : Arena) : Grows A A :=
  ⟨le_rfl, rfl, rfl, fun _ _ => rfl, fun _ h h' => absurd h (not_le.mpr h'), fun _ _ => rfl,
    fun _ h h' => absurd h (not_le.mpr h')⟩

theorem grows_allocate (A : Arena) : Grows A A.allocate.2 :=
  ⟨le_rfl, rfl, rfl, fun _ _ => rfl, fun _ h h' => absurd h (not_le.mpr h'), fun _ _ => rfl,
    fun _ h h' => absurd h (not_le.mpr h')⟩

theorem Grows.trans {C : Arena} (h₁ : Grows A B) (h₂ : Grows B C) : Grows A C := by
  refine ⟨h₁.count.trans h₂.count, h₂.records.trans h₁.records,
    h₂.matchCount.trans h₁.matchCount, fun s hs => ?_, fun s hs hs' => ?_, fun s hs => ?_,
    fun s hs hs' => ?_⟩
  · rw [h₂.head s (lt_of_lt_of_le hs h₁.count), h₁.head s hs]
  · by_cases hb : s < B.stateCount
    · rw [h₂.head s hb, h₁.fresh s hs hb]
    · exact h₂.fresh s (not_lt.mp hb) hs'
  · rw [h₂.failure s (lt_of_lt_of_le hs h₁.count), h₁.failure s hs]
  · by_cases hb : s < B.stateCount
    · rw [h₂.failure s hb, h₁.freshFailure s hs hb]
    · exact h₂.freshFailure s (not_lt.mp hb) hs'

/-- What the path loop of `yr_ac_add_string` may do: keep every state reachable before,
and add states only on prefixes of `path`. -/
structure PathGrowth (A B : Arena) (root : Nat) (path : List UInt8) : Prop where
  trie : TrieInv B root
  grows : Grows A B
  keep : ∀ w t, reach A root w = some t → reach B root w = some t
  new : ∀ w t, reach B root w = some t → reach A root w = some t ∨ (w <+: path ∧ A.stateCount ≤ t)

theorem PathGrowth.trans {C : Arena} {path path' : List UInt8} (h₁ : PathGrowth A B root path)
    (h₂ : PathGrowth B C root path') (hp : path <+: path') : PathGrowth A C root path' := by
  refine ⟨h₂.trie, h₁.grows.trans h₂.grows, fun w t h => h₂.keep w t (h₁.keep w t h),
    fun w t h => ?_⟩
  rcases h₂.new w t h with h | ⟨hw, ht⟩
  · rcases h₁.new w t h with h | ⟨hw, ht⟩
    · exact .inl h
    · exact .inr ⟨hw.trans hp, ht⟩
  · exact .inr ⟨hw, h₁.grows.count.trans ht⟩

theorem PathGrowth.frame {path : List UInt8} (hI : TrieInv A root) (hF : Frame A B)
    (hG : Grows A B) : PathGrowth A B root path :=
  ⟨hI.frame hF, hG, fun w _ h => (reach_frame hI hF w).trans h,
    fun w _ h => .inl ((reach_frame hI hF w).symm.trans h)⟩

theorem PathGrowth.createState {u : List UInt8} {p n : Nat} {b : UInt8} (hI : TrieInv A root)
    (hu : reach A root u = some p) (hnone : yrAcNextState A p b = none)
    (hlen : u.length < maxToken) (h : yrAcCreateState A p b = (B, some n)) :
    PathGrowth A B root (u ++ [b]) := by
  obtain ⟨rfl, hcount, hrec, hmc, -, hst⟩ := yrAcCreateState_some (hI.lt u p hu) h
  have hold : ∀ s, s < A.stateCount → B.states s = if s = p then
      { A.states p with transitions := installTransition (A.states p) b A.stateCount }
      else A.states s := fun s hs => by
    by_cases hsp : s = p
    · subst hsp; simp [hst, hs.ne]
    · simp [hst, hs.ne, hsp]
  have hnew : ∀ s, A.stateCount ≤ s → s < B.stateCount →
      B.states s = ⟨(A.states p).depth + 1, none, none, freshTransitions (A.states p).depth⟩ :=
    fun s hs hs' => by
      obtain rfl : s = A.stateCount := by omega
      simp [hst]
  refine ⟨hI.createState hu hnone hlen h, ⟨by omega, hrec, hmc, fun s hs => ?_,
    fun s hs hs' => by rw [hnew s hs hs'], fun s hs => ?_, fun s hs hs' => by rw [hnew s hs hs']⟩,
    fun w t ht => reach_createState_of_reach hI hu hnone h ht, fun w t ht => ?_⟩
  · rw [hold s hs]; split_ifs with hsp <;> simp [hsp]
  · rw [hold s hs]; split_ifs with hsp <;> simp [hsp]
  · rcases reach_createState_cases hI hu h ht with h | ⟨rfl, rfl⟩
    · exact .inl h
    · exact .inr ⟨List.prefix_refl _, le_rfl⟩

theorem PathGrowth.createState_none {p : Nat} {b : UInt8} {path : List UInt8}
    (hI : TrieInv A root) (h : yrAcCreateState A p b = (B, none)) : PathGrowth A B root path := by
  obtain ⟨hc, hrec, hmc, -, hs, hfresh⟩ := yrAcCreateState_none h
  exact PathGrowth.frame hI (frame_createState_none h)
    ⟨hc, hrec, hmc, fun s h' => by rw [hs s h'], fun s h h' => (hfresh s h h').1,
      fun s h' => by rw [hs s h'], fun s h h' => (hfresh s h h').2⟩

theorem addPath_spec {u bytes : List UInt8} {s : Nat} (hI : TrieInv A root)
    (hu : reach A root u = some s) (hlen : (u ++ bytes).length ≤ maxToken) :
    PathGrowth A (addPath A s bytes).1 root (u ++ bytes) ∧
      ∀ t, (addPath A s bytes).2 = some t →
        reach (addPath A s bytes).1 root (u ++ bytes) = some t := by
  induction bytes generalizing A u s with
  | nil =>
    refine ⟨⟨hI, Grows.refl A, fun _ _ h => h, fun _ _ h => .inl h⟩, fun t ht => ?_⟩
    simp only [addPath, Option.some.injEq] at ht
    simpa [← ht] using hu
  | cons c w ih =>
    have hu' : ∀ {B t}, reach B root u = some s → yrAcNextState B s c = some t →
        reach B root (u ++ [c]) = some t := fun h h' => by rw [reach_append_singleton, h]; exact h'
    have hlen' : (u ++ [c] ++ w).length ≤ maxToken := by simpa using hlen
    have hpre : u ++ [c] <+: u ++ [c] ++ w := List.prefix_append _ _
    rw [show u ++ c :: w = u ++ [c] ++ w by simp]
    cases hn : yrAcNextState A s c with
    | some t => simpa [addPath, hn] using ih hI (hu' hu hn) hlen'
    | none =>
      rcases hc : yrAcCreateState A s c with ⟨B, _ | n⟩
      · simpa [addPath, hn, hc] using PathGrowth.createState_none hI hc
      · have hB := PathGrowth.createState hI hu hn (by simp at hlen; omega) hc
        have hBu : reach B root (u ++ [c]) = some n := by
          simp [reach_createState hI hu hn hc]
        obtain ⟨hg, hr⟩ := ih hB.trie hBu hlen'
        have hg' := hB.trans hg hpre
        simpa [addPath, hn, hc] using And.intro hg' hr

theorem TrieInv.addTokens {string : YrString} {records : List TokenRecord} {m : Nat}
    (hI : TrieInv A root) (hroot : reach A root [] = some root)
    (hrec : ∀ r ∈ records, r.token.length ≤ maxToken) :
    TrieInv (addTokens root string A m records).arena root := by
  induction records generalizing A m with
  | nil => exact hI
  | cons r rs ih =>
    have hp := (addPath_spec hI hroot
      (show ([] ++ r.token).length ≤ maxToken by simpa using hrec r (by simp))).1.trie
    simp only [AddString.addTokens]
    rcases hpath : AddString.addPath A root r.token with ⟨B, _ | st⟩
    · simpa [hpath] using hp
    · rw [hpath] at hp
      simp only [Arena.allocate]
      cases hok : B.ok B.calls
      · exact hp.frame (frame_allocate B)
      · exact ih ((hp.frame (frame_allocate B)).frame (frame_addMatch _ _ _ _))
          (by simp) (fun r' hr' => hrec r' (by simp [hr']))

theorem TrieInv.addString (tables : RegexTables) (hI : TrieInv A root) (string : YrString) :
    TrieInv (yrAcAddString tables A ⟨root⟩ string).arena root := by
  have hI' := hI.frame (frame_allocate A)
  unfold AddString.yrAcAddString
  simp only [Arena.allocate]
  cases hok : A.ok A.calls
  · exact hI'
  · dsimp only
    split
    · cases hok' : A.ok (A.calls + 1)
      · exact hI'.frame (frame_allocate _)
      · exact (hI'.frame (frame_allocate _)).frame (frame_addMatch _ _ _ _)
    · exact hI'.addTokens (by simp) (fun r hr => yrAcGenTokens_length_le tables string r
        ((List.takeWhile_sublist _).subset hr))

theorem reach_yrAcCreateAutomaton {automaton : AcAutomaton}
    (h : yrAcCreateAutomaton A = (B, some automaton)) (w : List UInt8) :
    reach B automaton.root w = if w = [] then some automaton.root else none := by
  unfold Automaton.yrAcCreateAutomaton at h
  simp only [Arena.allocate] at h
  cases h1 : A.ok A.calls <;> cases h2 : A.ok (A.calls + 1) <;> simp [h1, h2] at h
  obtain ⟨rfl, rfl⟩ := h
  cases w with
  | nil => rfl
  | cons c w =>
    simp [yrAcNextState_eq, AcState.lookup, Arena.newState, AcTransitions.tableOf,
      maxTableBasedStatesDepth]

theorem TrieInv.create {automaton : AcAutomaton}
    (h : yrAcCreateAutomaton A = (B, some automaton)) : TrieInv B automaton.root := by
  have hr := reach_yrAcCreateAutomaton h
  have hroot : automaton.root < B.stateCount ∧ B.states automaton.root =
      ⟨0, none, none, .table (fun _ => none)⟩ := by
    unfold Automaton.yrAcCreateAutomaton at h
    simp only [Arena.allocate] at h
    cases h1 : A.ok A.calls <;> cases h2 : A.ok (A.calls + 1) <;> simp [h1, h2] at h
    obtain ⟨rfl, rfl⟩ := h
    simp [Arena.newState]
  have hw : ∀ w s, reach B automaton.root w = some s → w = [] ∧ s = automaton.root := by
    intro w s hs
    rw [hr] at hs
    split_ifs at hs with hw
    · exact ⟨hw, (Option.some.inj hs).symm⟩
  refine ⟨fun w s hs => ?_, fun w s hs => ?_, fun w s hs => ?_, fun w s hs => ?_,
    fun w v s hs hv => ?_, fun w s hs => ?_⟩ <;> obtain ⟨rfl, rfl⟩ := hw w s hs
  · exact hroot.1
  · simp [hroot.2]
  · simp [hroot.2, AcState.LayoutOk, AcTransitions.isTable, maxTableBasedStatesDepth]
  · simp [hroot.2, AcTransitions.listOf]
  · exact (hw v _ hv).1.symm
  · simp

/-- The automata of `yr_ac_create_automaton` and any `yr_ac_add_string` calls, each succeeding or
failing at any of its allocations as the arena's outcomes say. -/
inductive Built (tables : RegexTables) : Arena → AcAutomaton → Prop
  | create {A B : Arena} {automaton : AcAutomaton} :
      yrAcCreateAutomaton A = (B, some automaton) → Built tables B automaton
  | add {A : Arena} {automaton : AcAutomaton} (string : YrString) :
      Built tables A automaton →
        Built tables (yrAcAddString tables A automaton string).arena automaton

theorem Built.trieInv {tables : RegexTables} {automaton : AcAutomaton} (h : Built tables A automaton) :
    TrieInv A automaton.root := by
  induction h with
  | create h => exact TrieInv.create h
  | add string _ ih => exact ih.addString tables string

theorem TrieInv.unique_parent (hI : TrieInv A root) {w : List UInt8} {s : Nat}
    (hs : reach A root w = some s) (hne : w ≠ []) :
    ∃! e : Nat × UInt8, (∃ v, reach A root v = some e.1) ∧ yrAcNextState A e.1 e.2 = some s := by
  obtain ⟨v, c, rfl⟩ := List.eq_nil_or_concat w |>.resolve_left hne
  rw [List.concat_eq_append, reach_append_singleton] at hs
  cases hv : reach A root v with
  | none => simp [hv] at hs
  | some p =>
    rw [hv] at hs
    refine ⟨(p, c), ⟨⟨v, hv⟩, hs⟩, ?_⟩
    rintro ⟨p', c'⟩ ⟨⟨v', hv'⟩, hs'⟩
    have hw : reach A root (v' ++ [c']) = some s := by rw [reach_append_singleton, hv']; exact hs'
    have hw' : reach A root (v ++ [c]) = some s := by rw [reach_append_singleton, hv]; exact hs
    obtain ⟨rfl, hc⟩ := List.append_inj' (hI.inj _ _ s hw hw') rfl
    obtain rfl : c' = c := by simpa using hc
    rw [hv] at hv'
    cases hv'
    rfl

/-- Character tables under which no character is a regular-expression literal. -/
def literalTables : RegexTables := ⟨fun _ => false, fun _ => false⟩

def abString : YrString := ⟨false, false, true, false, false, [97, 98], [], []⟩

def abAutomaton : Arena :=
  (yrAcAddString literalTables (yrAcCreateAutomaton (emptyArena fun _ => true)).1 ⟨0⟩ abString).arena

theorem abAutomaton_built : Built literalTables abAutomaton ⟨0⟩ :=
  .add _ (.create (show yrAcCreateAutomaton (emptyArena fun _ => true) =
    ((yrAcCreateAutomaton (emptyArena fun _ => true)).1, some ⟨0⟩) from rfl))

/-- In every built automaton a state reached by `w` has depth `|w|`, at most `MAX_TOKEN`, its
depth's layout, no repeated byte, and, unless it is the root, one incoming transition. -/
theorem built_states_wellformed {tables : RegexTables} {automaton : AcAutomaton}
    (h : Built tables A automaton) (w : List UInt8) (s : Nat)
    (hs : reach A automaton.root w = some s) :
    (A.states s).depth = w.length ∧ w.length ≤ maxToken ∧
      ((A.states s).transitions.isTable = true ↔ (A.states s).depth ≤ maxTableBasedStatesDepth) ∧
      ((A.states s).transitions.listOf.map (·.input)).Nodup ∧
      (s ≠ automaton.root →
        ∃! e : Nat × UInt8, (∃ v, reach A automaton.root v = some e.1) ∧
          yrAcNextState A e.1 e.2 = some s) := by
  have hI := h.trieInv
  refine ⟨hI.depth w s hs, hI.bound w s hs, hI.layout w s hs, hI.nodup w s hs, fun hne => ?_⟩
  refine hI.unique_parent hs ?_
  rintro rfl
  exact hne (Option.some.inj hs).symm

theorem built_states_wellformed_ab :
    Built literalTables abAutomaton ⟨0⟩ ∧
      reach abAutomaton 0 [97, 98] = some 2 ∧
      ((abAutomaton.states 2).depth = 2 ∧ 2 ≤ maxToken ∧
        ((abAutomaton.states 2).transitions.isTable = true ↔
          (abAutomaton.states 2).depth ≤ maxTableBasedStatesDepth) ∧
        ((abAutomaton.states 2).transitions.listOf.map (·.input)).Nodup ∧
        (2 ≠ 0 → ∃! e : Nat × UInt8, (∃ v, reach abAutomaton 0 v = some e.1) ∧
          yrAcNextState abAutomaton e.1 e.2 = some 2)) :=
  ⟨abAutomaton_built, rfl, built_states_wellformed abAutomaton_built [97, 98] 2 rfl⟩

end YaraAhoCorasick.Trie
