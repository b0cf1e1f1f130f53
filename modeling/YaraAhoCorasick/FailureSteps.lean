import YaraAhoCorasick.FailureInvariant

namespace YaraAhoCorasick.FailureSteps

open YaraAhoCorasick.Tokens YaraAhoCorasick.Automaton YaraAhoCorasick.FailureLinks
  YaraAhoCorasick.Trie YaraAhoCorasick.MatchList YaraAhoCorasick.OwnRecords
  YaraAhoCorasick.Levels YaraAhoCorasick.FailureInvariant

variable {A₀ A B : Arena} {root : Nat} {popped : Nat → Prop}

theorem matchTail_of_chain {head : Option Nat} {ms : List Nat} (h : Chain A head ms) :
    ∀ m fuel, head = some m → ms.length ≤ fuel → matchTail A fuel m = ms.getLast? := by
  induction h with
  | nil => intro m fuel h; cases h
  | @cons m' ms hc ih =>
    intro m fuel hm hf
    cases hm
    obtain ⟨fuel, rfl⟩ : ∃ f, fuel = f + 1 := ⟨fuel - 1, by simp at hf; omega⟩
    simp only [matchTail]
    cases hn : (A.matchRecords m').next with
    | none =>
      rw [hn] at hc
      obtain rfl := chain_none_iff.mp hc
      rfl
    | some m'' =>
      rw [hn] at hc
      obtain ⟨ms', rfl, -⟩ := chain_some_iff.mp hc
      show matchTail A fuel m'' = _
      rw [ih m'' fuel hn (by simpa using hf)]
      simp

theorem failureSearch_spec (hI : TrieInv A₀ root) (hK : Keeps A₀ A) (hF : FailOk A₀ root A)
    (i : UInt8) :
    ∀ n fs, (fs = root ∨ InTrie A₀ root fs ∧ (A.states fs).failure ≠ none) →
      (A₀.states fs).depth < n →
      ∃ res, failureSearch A root i n fs = some res ∧ ∀ temp, res = some temp →
        InTrie A₀ root temp ∧ temp ≠ root ∧ (A₀.states temp).depth ≤ (A₀.states fs).depth + 1
  | 0, _, _, h => absurd h (Nat.not_lt_zero _)
  | n + 1, fs, hfs, hn => by
    have hin : InTrie A₀ root fs := hfs.elim (fun h => h ▸ inTrie_root) And.left
    simp only [failureSearch]
    cases hnext : yrAcNextState A fs i with
    | some temp =>
      refine ⟨some temp, rfl, fun temp' h => ?_⟩
      cases h
      obtain ⟨w, hw⟩ := hin
      have hr : reach A₀ root (w ++ [i]) = some temp := by
        rw [reach_append_singleton, hw]
        simpa [hK.nextState] using hnext
      refine ⟨⟨_, hr⟩, fun h => ?_, by rw [hI.depth _ _ hr, hI.depth _ _ hw]; simp⟩
      subst h
      simpa using hI.inj _ [] _ hr rfl
    | none =>
      by_cases hr : fs = root
      · exact ⟨none, by simp [hr], fun _ h => by cases h⟩
      · obtain ⟨u, hu⟩ := Option.ne_none_iff_exists'.mp (hfs.resolve_left hr).2
        obtain ⟨hu₁, hu₂, hu₃⟩ := hF fs u hin hr hu
        obtain ⟨res, hres, hspec⟩ := failureSearch_spec hI hK hF i n u
          (hu₃.imp_right fun h => ⟨hu₁, h⟩) (by omega)
        refine ⟨res, by simp [hr, hu, hres], fun temp h => ?_⟩
        obtain ⟨h₁, h₂, h₃⟩ := hspec temp h
        exact ⟨h₁, h₂, by omega⟩

theorem failureSearch_congr (hK : Keeps A₀ A) (hKB : Keeps A₀ B) (hF : FailOk A₀ root A)
    (i : UInt8) {D : Nat} (hB : ∀ s, InTrie A₀ root s → (A₀.states s).depth ≤ D →
      (B.states s).failure = (A.states s).failure) :
    ∀ n fs, InTrie A₀ root fs → (A₀.states fs).depth ≤ D →
      failureSearch B root i n fs = failureSearch A root i n fs
  | 0, _, _, _ => rfl
  | n + 1, fs, hfs, hD => by
    simp only [failureSearch, hKB.nextState, hK.nextState, hB fs hfs hD]
    cases yrAcNextState A₀ fs i with
    | some temp => rfl
    | none =>
      by_cases hr : fs = root
      · simp [hr]
      · rcases hf : (A.states fs).failure with _ | u
        · rfl
        · obtain ⟨hu, hud, -⟩ := hF fs u hfs hr hf
          simp only [hr, ↓reduceIte, Option.bind_eq_bind, Option.some_bind]
          exact failureSearch_congr hK hKB hF i hB n u hu (by omega)

/-- The failure link the loop body gives each child of `current`: the state the search from
the failure target of `current` finds on the byte `i`, or the root. -/
def linkTarget (A : Arena) (root : Nat) (i : UInt8) (current : Nat) : Nat :=
  match (A.states current).failure with
  | none => root
  | some fs =>
    match failureSearch A root i ((A.states fs).depth + 1) fs with
    | some (some temp) => temp
    | _ => root

theorem linkTarget_congr (hK : Keeps A₀ A) (hKB : Keeps A₀ B) (hF : FailOk A₀ root A)
    (i : UInt8) {x : Nat} (hx : InTrie A₀ root x) (hxr : x ≠ root)
    (hB : ∀ s, InTrie A₀ root s → (A₀.states s).depth ≤ (A₀.states x).depth →
      (B.states s).failure = (A.states s).failure) :
    linkTarget B root i x = linkTarget A root i x := by
  unfold linkTarget
  rw [hB x hx le_rfl]
  rcases hf : (A.states x).failure with _ | fs
  · rfl
  · obtain ⟨hfs, hfsd, -⟩ := hF x fs hx hxr hf
    simp only [hK.depth, hKB.depth, failureSearch_congr hK hKB hF i hB _ fs hfs hfsd.le]

theorem setNext_self {m : Nat} {target : Option Nat} (h : (A.matchRecords m).next = target) :
    setNext A m target = A := by
  simp only [setNext, Arena.setMatch, ← h, Function.update_eq_self]

theorem setMatchHead_self {s : Nat} {target : Option Nat} (h : (A.states s).matchHead = target) :
    setMatchHead A s target = A := by
  simp only [setMatchHead, Arena.setState, ← h, Function.update_eq_self]

theorem getLast_not_mem_dropLast {l : List Nat} (hl : l.Nodup) (hne : l ≠ []) :
    l.getLast hne ∉ l.dropLast := by
  intro hm
  rw [← List.dropLast_append_getLast hne, List.nodup_append] at hl
  exact hl.2.2 hm (List.mem_singleton_self _)

theorem slot_setNext {x m : Nat} {target : Option Nat} (hm : m ∉ ownRecords A₀ x) :
    slot A₀ (setNext A m target) x = slot A₀ A x := by
  unfold FailureInvariant.slot
  rcases hl : (ownRecords A₀ x).getLast? with _ | m'
  · rfl
  · have hne : m' ≠ m := fun h => hm (h ▸ List.mem_of_getLast?_eq_some hl)
    simp [hne]

theorem LinkInv.allocate (h : LinkInv A₀ root popped A) :
    LinkInv A₀ root popped A.allocate.2 := by
  have hP : ∀ u, pathRecords A₀ A.allocate.2 root u = pathRecords A₀ A root u :=
    fun u => failPath_eq (fun s => show (A.allocate.2.states s).failure = (A.states s).failure from rfl) _ u
  exact ⟨h.keeps.trans (keeps_allocate A), h.rootFailure, h.rootHead, h.failure, h.rootRecords,
    h.records, h.heads, h.unlinked, fun v u hv hvr hf => by rw [hP]; exact h.slot v u hv hvr hf,
    h.popped⟩

/-- Every allocation from the `calls`-th on succeeds. -/
def AllocationsSucceed (A : Arena) : Prop := ∀ n, A.calls ≤ n → A.ok n = true

theorem yrAcQueuePush_of_ok {q : Queue} {t : Nat} (hok : A.ok A.calls = true) :
    yrAcQueuePush A q t = (A.allocate.2, q ++ [t], .success) := by
  simp [yrAcQueuePush, Arena.allocate, hok]

section Update

variable (hO : OwnLists A₀ root) (h : LinkInv A₀ root popped A)
include hO h

theorem LinkInv.update {t u : Nat} {σ : Option Nat}
    (ht : InTrie A₀ root t) (htr : t ≠ root)
    (hprev : (A.states t).failure = none ∨ (A.states t).failure = some u)
    (hu : InTrie A₀ root u) (hud : (A₀.states u).depth < (A₀.states t).depth)
    (hul : u = root ∨ (A.states u).failure ≠ none)
    (hσ : σ = (pathRecords A₀ A root u ++ ownRecords A₀ root).head? ∨
      (σ = none ∧ pathRecords A₀ A root u = [] ∧ ownRecords A₀ root ≠ [] ∧ ¬ popped t))
    (hK : Keeps A B)
    (hfail : ∀ s, (B.states s).failure = if s = t then some u else (A.states s).failure)
    (hhead : ∀ s, s ≠ t ∨ ownRecords A₀ s ≠ [] → (B.states s).matchHead = (A.states s).matchHead)
    (hrec : ∀ m, m ∉ ownRecords A₀ t → B.matchRecords m = A.matchRecords m)
    (hlast : ∀ m ∈ (ownRecords A₀ t).dropLast, B.matchRecords m = A.matchRecords m)
    (hslot : slot A₀ B t = σ) :
    LinkInv A₀ root popped B := by
  have hut : u ≠ t := fun hut => (lt_irrefl _) (hut ▸ hud)
  have hrt : root ≠ t := fun h' => htr h'.symm
  have hfail' : ∀ s, s ≠ t → (B.states s).failure = (A.states s).failure := fun s hs => by
    rw [hfail, if_neg hs]
  have htB : (B.states t).failure = some u := by rw [hfail, if_pos rfl]
  have hP : ∀ v, (v = root ∨ InTrie A₀ root v ∧ (A.states v).failure ≠ none) →
      pathRecords A₀ B root v = pathRecords A₀ A root v := by
    intro v hv
    rcases hprev with hnone | hsome
    · refine failPath_congr h.failure htr hnone hfail' _ v (hv.imp_right And.left) ?_
      rintro rfl
      rcases hv with h' | ⟨-, h'⟩
      · exact htr h'
      · exact h' hnone
    · refine failPath_eq (fun s => ?_) _ v
      by_cases hs : s = t
      · rw [hfail, if_pos hs, hs, hsome]
      · exact hfail' s hs
  have hslot' : ∀ v, InTrie A₀ root v → v ≠ t → slot A₀ B v = slot A₀ A v := by
    intro v hv hvt
    unfold FailureInvariant.slot
    rcases hl : (ownRecords A₀ v).getLast? with _ | m
    · exact hhead v (.inl hvt)
    · exact congrArg AcMatch.next
        (hrec m (own_disjoint hO hv ht hvt (List.mem_of_getLast?_eq_some hl)))
  refine ⟨h.keeps.trans hK, (hfail' root hrt).trans h.rootFailure,
    (hhead root (.inl hrt)).trans h.rootHead, ?failure, ?rootRecords, ?records, ?heads,
    ?unlinked, ?slot, ?popped⟩
  case failure =>
    intro v u' hv hvr hf
    by_cases hvt : v = t
    · rw [hvt, htB, Option.some.injEq] at hf
      subst hf hvt
      exact ⟨hu, hud, hul.imp_right fun hl => by rwa [hfail' _ hut]⟩
    · rw [hfail' v hvt] at hf
      obtain ⟨h₁, h₂, h₃⟩ := h.failure v u' hv hvr hf
      refine ⟨h₁, h₂, h₃.imp_right fun hl => ?_⟩
      by_cases hut' : u' = t
      · rw [hut', htB]; simp
      · rwa [hfail' u' hut']
  case rootRecords =>
    intro m hm
    rw [hrec m (own_disjoint hO inTrie_root ht hrt hm)]
    exact h.rootRecords m hm
  case records =>
    intro v hv hvr m hm
    by_cases hvt : v = t
    · subst hvt
      rw [hlast m hm]
      exact h.records v hv hvr m hm
    · rw [hrec m (own_disjoint hO hv ht hvt (List.dropLast_subset _ hm))]
      exact h.records v hv hvr m hm
  case heads =>
    intro v hv hown
    rw [hhead v (.inr hown)]
    exact h.heads v hv hown
  case unlinked =>
    intro v hv hvr hf
    have hvt : v ≠ t := by rintro rfl; rw [htB] at hf; cases hf
    rw [hslot' v hv hvt]
    exact h.unlinked v hv hvr (by rwa [hfail' v hvt] at hf)
  case slot =>
    intro v u' hv hvr hf
    by_cases hvt : v = t
    · rw [hvt, htB, Option.some.injEq] at hf
      subst hf hvt
      rw [hslot, hP _ (hul.imp_right fun hl => ⟨hu, hl⟩)]
      exact hσ
    · rw [hfail' v hvt] at hf
      obtain ⟨h₁, -, h₃⟩ := h.failure v u' hv hvr hf
      rw [hslot' v hv hvt, hP u' (h₃.imp_right fun hl => ⟨h₁, hl⟩)]
      exact h.slot v u' hv hvr hf
  case popped =>
    intro v hv
    obtain ⟨h₁, h₂, h₃⟩ := h.popped v hv
    refine ⟨h₁, h₂, ?_⟩
    by_cases hvt : v = t
    · rw [hvt, htB]; simp
    · rwa [hfail' v hvt]

omit hO in
theorem LinkInv.pop {x u : Nat} (hx : InTrie A₀ root x) (hxr : x ≠ root)
    (hu : (A.states x).failure = some u)
    (hgood : slot A₀ A x = (pathRecords A₀ A root u ++ ownRecords A₀ root).head?) :
    LinkInv A₀ root (fun v => popped v ∨ v = x) A := by
  refine ⟨h.keeps, h.rootFailure, h.rootHead, h.failure, h.rootRecords, h.records, h.heads,
    h.unlinked, fun v u' hv hvr hf => ?_, fun v hv => ?_⟩
  · rcases h.slot v u' hv hvr hf with h₁ | ⟨h₁, h₂, h₃, h₄⟩
    · exact .inl h₁
    · by_cases hvx : v = x
      · subst hvx
        rw [hu, Option.some.injEq] at hf
        exact .inl (hf ▸ hgood)
      · exact .inr ⟨h₁, h₂, h₃, fun h' => h'.elim h₄ hvx⟩
  · rcases hv with hv | rfl
    · exact h.popped v hv
    · exact ⟨hx, hxr, by simp [hu]⟩

theorem LinkInv.open_chain {v : Nat} (hv : Open A₀ root popped A v) :
    pathRecords A₀ A root v = ownRecords A₀ v ∧
      Chain A (A₀.states v).matchHead (ownRecords A₀ v) := by
  obtain ⟨⟨w, hw⟩, hr, hown, hslot, -, -, u, hu, hP⟩ := hv
  refine ⟨by rw [pathRecords_of_failure h.failure ⟨w, hw⟩ hr hu, hP, List.append_nil], ?_⟩
  have hlast : (A.matchRecords ((ownRecords A₀ v).getLast hown)).next = none := by
    simpa [FailureInvariant.slot, List.getLast?_eq_getLast _ hown] using hslot
  simpa using (own_chain hO hw).1.append hown (h.records v ⟨w, hw⟩ hr) hlast .nil

theorem LinkInv.own_eq_nil {t : Nat} (ht : InTrie A₀ root t) (hm : (A.states t).matchHead = none) :
    ownRecords A₀ t = [] := by
  by_contra hown
  obtain ⟨w, hw⟩ := ht
  rw [h.heads t ⟨w, hw⟩ hown, (own_chain hO hw).1.head_eq] at hm
  exact hown (List.head?_eq_none_iff.mp hm)

theorem LinkInv.popEmpty {x u : Nat} (hx : InTrie A₀ root x) (hxr : x ≠ root)
    (hu : (A.states x).failure = some u) (hm : (A.states x).matchHead = none) :
    LinkInv A₀ root (fun v => popped v ∨ v = x) (setMatchHead A x (A.states root).matchHead) := by
  obtain ⟨hin, hud, hul⟩ := h.failure x u hx hxr hu
  have hroot := h.rootHead_eq hO
  have hown := LinkInv.own_eq_nil hO h hx hm
  have hPu : pathRecords A₀ A root u = [] := by
    rcases h.slot x u hx hxr hu with h' | ⟨-, h', -⟩
    · rw [show slot A₀ A x = none by simp [FailureInvariant.slot, hown, hm]] at h'
      exact (List.append_eq_nil.mp (List.head?_eq_none_iff.mp h'.symm)).1
    · exact h'
  have hσ : (A.states root).matchHead =
      (pathRecords A₀ A root u ++ ownRecords A₀ root).head? := by
    rw [hPu, List.nil_append, hroot]
  have hB := LinkInv.update hO h hx hxr (.inr hu) hin hud hul (.inl hσ)
    (keeps_setMatchHead A x (A.states root).matchHead)
    (fun s => by rw [setMatchHead_failure]; split_ifs with hs <;> simp [hs, hu])
    (fun s hs => by
      rw [setMatchHead_matchHead, if_neg]
      rintro rfl
      exact hs.elim (fun h' => h' rfl) (fun h' => h' hown))
    (fun _ _ => rfl) (fun _ _ => rfl) (by simp [FailureInvariant.slot, hown])
  refine LinkInv.pop hB hx hxr ((by simp : _ = (A.states x).failure).trans hu) ?_
  rw [show pathRecords A₀ (setMatchHead A x (A.states root).matchHead) root u =
    pathRecords A₀ A root u from failPath_eq (fun s => by simp) _ u, hPu, List.nil_append, ← hroot]
  simp [FailureInvariant.slot, hown]

theorem LinkInv.closeOpen {v tl : Nat} (hv : Open A₀ root popped A v)
    (htl : (ownRecords A₀ v).getLast? = some tl) :
    LinkInv A₀ root popped (setNext A tl (A.states root).matchHead) := by
  obtain ⟨hvin, hvr, hvown, -, -, -, u', hu', hPu'⟩ := hv
  have htlv : tl = (ownRecords A₀ v).getLast hvown := by
    rw [List.getLast?_eq_getLast _ hvown] at htl
    exact (Option.some.inj htl).symm
  have htlmem : tl ∈ ownRecords A₀ v := htlv ▸ List.getLast_mem hvown
  obtain ⟨hvin', hvd, hvl⟩ := h.failure v u' hvin hvr hu'
  have hσ : (A.states root).matchHead =
      (pathRecords A₀ A root u' ++ ownRecords A₀ root).head? := by
    rw [hPu', List.nil_append, h.rootHead_eq hO]
  exact LinkInv.update hO h hvin hvr (.inr hu') hvin' hvd hvl (.inl hσ)
    (keeps_setNext A tl (A.states root).matchHead)
    (fun s => by
      rw [setNext_states]
      split_ifs with hs
      · rw [hs, hu']
      · rfl)
    (fun _ _ => rfl)
    (fun m hm => by rw [setNext_matchRecords, if_neg (ne_of_mem_of_not_mem htlmem hm).symm])
    (fun m hm => by
      rw [setNext_matchRecords, if_neg (ne_of_mem_of_not_mem hm
        (htlv ▸ getLast_not_mem_dropLast (own_nodup hO hvin) hvown))])
    (by simp [FailureInvariant.slot, htl])

theorem LinkInv.appendRootMatches (hI : TrieInv A₀ root) {x : Nat} (hx : InTrie A₀ root x)
    (hxr : x ≠ root) (hl : (A.states x).failure ≠ none) :
    ∃ A', appendRootMatches A root x = some A' ∧
      LinkInv A₀ root (fun v => popped v ∨ v = x) A' ∧
      ∀ s, (A'.states s).failure = (A.states s).failure := by
  obtain ⟨u, hu⟩ := Option.ne_none_iff_exists'.mp hl
  have hroot := h.rootHead_eq hO
  unfold FailureLinks.appendRootMatches
  rcases hm : (A.states x).matchHead with _ | m
  · exact ⟨_, rfl, LinkInv.popEmpty hO h hx hxr hu hm, fun s => by simp⟩
  have hhead : (A.states x).matchHead = (pathRecords A₀ A root x ++ ownRecords A₀ root).head? :=
    (h.head_eq hO hx hxr hl).resolve_right fun ⟨h', _⟩ => by rw [hm] at h'; cases h'
  obtain ⟨L, hL, hcases⟩ := h.chain_path hO _ x (Nat.lt_succ_self _) (.inr ⟨hx, hl⟩)
  rw [← hhead, hm] at hL
  have hsub : ∀ m ∈ L, m ∈ pathRecords A₀ A root x ++ ownRecords A₀ root := by
    rcases hcases with rfl | ⟨rfl, -⟩
    · exact fun _ h => h
    · exact fun _ h => List.mem_append_left _ h
  have hbound := hL.length_le fun m hm => h.path_lt hO (.inr hx) (hsub m hm)
  obtain ⟨L', rfl⟩ : ∃ L', L = m :: L' := by cases hL; exact ⟨_, rfl⟩
  have hne : m :: L' ≠ [] := List.cons_ne_nil _ _
  have htail := matchTail_of_chain hL m (A.matchCount + 1) rfl (by omega)
  rw [List.getLast?_eq_getLast _ hne] at htail
  simp only [htail, Option.bind_eq_bind, Option.some_bind]
  generalize htl : (m :: L').getLast hne = tl
  have htl' : (m :: L').getLast? = some tl := by rw [List.getLast?_eq_getLast _ hne, htl]
  have hxgood : slot A₀ A x = (pathRecords A₀ A root u ++ ownRecords A₀ root).head? ∨
      Open A₀ root popped A x := by
    rcases h.slot x u hx hxr hu with h' | ⟨h₁, h₂, h₃, h₄⟩
    · exact .inl h'
    · refine .inr ⟨hx, hxr, fun hown => ?_, h₁, h₄, h₃, u, hu, h₂⟩
      simp [FailureInvariant.slot, hown, hm] at h₁
  have hopen : Open A₀ root popped A x → m :: L' = ownRecords A₀ x := by
    intro hop
    obtain ⟨-, hc⟩ := LinkInv.open_chain hO h hop
    obtain ⟨w, hw⟩ := hx
    rw [← h.heads x ⟨w, hw⟩ hop.2.2.1, hm] at hc
    exact hL.unique hc
  rcases hcases with hfull | ⟨-, v, hv, hlast⟩
  · have hgood : slot A₀ A x = (pathRecords A₀ A root u ++ ownRecords A₀ root).head? := by
      refine hxgood.resolve_right fun hop => hop.2.2.2.2.2.1 ?_
      have hlen := congrArg List.length ((hopen hop).symm.trans hfull)
      rw [(LinkInv.open_chain hO h hop).1, List.length_append] at hlen
      exact List.length_eq_zero.mp (by omega)
    refine ⟨A, ?_, LinkInv.pop h hx hxr hu hgood, fun _ => rfl⟩
    by_cases hR : ownRecords A₀ root = []
    · have hnext : (A.matchRecords tl).next = (A.states root).matchHead := by
        rw [hroot, hR, List.head?_nil, ← htl]
        exact hL.last_next hne
      split_ifs <;> simp [setNext_self hnext]
    · have htlR : tl ∈ ownRecords A₀ root := by
        rw [hfull, List.getLast?_append_of_ne_nil _ hR] at htl'
        exact List.mem_of_getLast?_eq_some htl'
      have h0 := own_backtrack hO hI inTrie_root htlR
      rw [if_pos rfl] at h0
      rw [if_neg (by rw [h.keeps.backtrack, h0]; exact lt_irrefl 0)]
  · have htlv : (ownRecords A₀ v).getLast? = some tl := hlast ▸ htl'
    have htlmem := List.mem_of_getLast?_eq_some htlv
    have hpos : 0 < (A.matchRecords tl).backtrack := by
      have h0 := own_backtrack hO hI hv.1 htlmem
      rw [if_neg hv.2.1] at h0
      rwa [h.keeps.backtrack]
    rw [if_pos hpos]
    have hB := LinkInv.closeOpen hO h hv htlv
    refine ⟨_, rfl, LinkInv.pop hB hx hxr hu ?_, fun s => rfl⟩
    rw [show pathRecords A₀ (setNext A tl (A.states root).matchHead) root u =
      pathRecords A₀ A root u from failPath_eq (fun s => by simp) _ u]
    by_cases hxv : x = v
    · subst hxv
      obtain ⟨-, -, -, -, -, -, u', hu', hPu'⟩ := hv
      rw [hu, Option.some.injEq] at hu'
      subst hu'
      simp [FailureInvariant.slot, htlv, hPu', hroot]
    · rw [slot_setNext fun h' => own_disjoint hO hv.1 hx (Ne.symm hxv) htlmem h']
      refine hxgood.resolve_right fun hop => hxv ?_
      by_contra hne'
      exact own_disjoint hO hx hv.1 hne' ((hopen hop) ▸ htl ▸ List.getLast_mem hne) htlmem

theorem LinkInv.chain_unlinked {t : Nat} (ht : InTrie A₀ root t) (htr : t ≠ root)
    (hunl : (A.states t).failure = none) (hown : ownRecords A₀ t ≠ []) :
    Chain A (A₀.states t).matchHead (ownRecords A₀ t) := by
  obtain ⟨w, hw⟩ := ht
  have hlast : (A.matchRecords ((ownRecords A₀ t).getLast hown)).next = none := by
    simpa [FailureInvariant.slot, List.getLast?_eq_getLast _ hown] using
      h.unlinked t ⟨w, hw⟩ htr hunl
  simpa using (own_chain hO hw).1.append hown (h.records t ⟨w, hw⟩ htr) hlast .nil

theorem LinkInv.appendFailureMatches {t temp : Nat} (ht : InTrie A₀ root t) (htr : t ≠ root)
    (hunl : (A.states t).failure = none) (htemp : InTrie A₀ root temp) (htempr : temp ≠ root)
    (hd : (A₀.states temp).depth < (A₀.states t).depth) (hl : (A.states temp).failure ≠ none) :
    ∃ A', appendFailureMatches (setFailure A t temp) t temp = some A' ∧
      LinkInv A₀ root popped A' ∧
      ∀ s, (A'.states s).failure = if s = t then some temp else (A.states s).failure := by
  have hnp : ¬ popped t := fun hp => (h.popped t hp).2.2 hunl
  have hσ : (A.states temp).matchHead =
        (pathRecords A₀ A root temp ++ ownRecords A₀ root).head? ∨
      ((A.states temp).matchHead = none ∧ pathRecords A₀ A root temp = [] ∧
        ownRecords A₀ root ≠ [] ∧ ¬ popped t) :=
    (LinkInv.head_eq hO h htemp htempr hl).imp_right fun ⟨h₁, h₂, h₃, _⟩ => ⟨h₁, h₂, h₃, hnp⟩
  have hslot := h.unlinked t ht htr hunl
  unfold FailureLinks.appendFailureMatches
  rw [setFailure_matchHead, setFailure_matchHead]
  rcases hm : (A.states t).matchHead with _ | m
  · have hown := LinkInv.own_eq_nil hO h ht hm
    refine ⟨_, rfl, LinkInv.update hO h ht htr (.inl hunl) htemp hd (.inr hl) hσ
      ((keeps_setFailure A t temp).trans (keeps_setMatchHead _ t (A.states temp).matchHead))
      (fun s => by simp) (fun s hs => ?_) (fun _ _ => rfl) (fun _ _ => rfl)
      (by simp [FailureInvariant.slot, hown]), fun s => by simp⟩
    rw [setMatchHead_matchHead, if_neg, setFailure_matchHead]
    rintro rfl
    exact hs.elim (fun h' => h' rfl) (fun h' => h' hown)
  · have hown : ownRecords A₀ t ≠ [] := by
      intro hown
      simp [FailureInvariant.slot, hown, hm] at hslot
    have hc := LinkInv.chain_unlinked hO h ht htr hunl hown
    rw [← h.heads t ht hown, hm] at hc
    have hlen := hc.length_le fun m' hm' => own_lt hO ht hm'
    have htail := matchTail_of_chain (hc.frame fun _ _ => rfl : Chain (setFailure A t temp) _ _)
      m ((setFailure A t temp).matchCount + 1) rfl
      (by show _ ≤ A.matchCount + 1; have := h.keeps.matchCount; omega)
    rw [List.getLast?_eq_getLast _ hown] at htail
    simp only [htail, Option.bind_eq_bind, Option.some_bind]
    have hlastNot := getLast_not_mem_dropLast (own_nodup hO ht) hown
    refine ⟨_, rfl, LinkInv.update hO h ht htr (.inl hunl) htemp hd (.inr hl) hσ
      ((keeps_setFailure A t temp).trans (keeps_setNext _ _ (A.states temp).matchHead))
      (fun s => by simp) (fun s _ => by simp) (fun m' hm' => ?_) (fun m' hm' => ?_)
      (by simp [FailureInvariant.slot, List.getLast?_eq_getLast _ hown]), fun s => by simp⟩
    · rw [setNext_matchRecords, if_neg (ne_of_mem_of_not_mem (List.getLast_mem hown) hm').symm]
      rfl
    · rw [setNext_matchRecords, if_neg (ne_of_mem_of_not_mem hm' hlastNot)]
      rfl

theorem LinkInv.linkRoot (hI : TrieInv A₀ root) {t : Nat} (ht : InTrie A₀ root t)
    (htr : t ≠ root) (hunl : (A.states t).failure = none) :
    LinkInv A₀ root popped (setFailure A t root) := by
  have hnp : ¬ popped t := fun hp => (h.popped t hp).2.2 hunl
  have hd : (A₀.states root).depth < (A₀.states t).depth := by
    rw [hI.depth [] root rfl]
    exact depth_pos hI ht htr
  have hσ : (none : Option Nat) =
        (pathRecords A₀ A root root ++ ownRecords A₀ root).head? ∨
      ((none : Option Nat) = none ∧ pathRecords A₀ A root root = [] ∧ ownRecords A₀ root ≠ [] ∧ ¬ popped t) := by
    by_cases hR : ownRecords A₀ root = []
    · exact .inl (by simp [pathRecords_root, hR])
    · exact .inr ⟨rfl, pathRecords_root _ _ _, hR, hnp⟩
  refine LinkInv.update hO h ht htr (.inl hunl) inTrie_root hd (.inl rfl) hσ
    (keeps_setFailure A t root) (fun s => by simp) (fun s _ => by simp) (fun _ _ => rfl)
    (fun _ _ => rfl) (by rw [slot_setFailure, h.unlinked t ht htr hunl])

theorem LinkInv.linkChild (hI : TrieInv A₀ root) (hok : AllocationsSucceed A₀) (i : UInt8)
    {x t : Nat} (hx : InTrie A₀ root x) (hxr : x ≠ root) (ht : t ∈ children A₀ x)
    (hunl : (A.states t).failure = none)
    (hdeep : ∀ y, InTrie A₀ root y → y ≠ root → (A₀.states y).depth ≤ (A₀.states x).depth →
      (A.states y).failure ≠ none) (q : Queue) :
    ∃ A', linkChild i root x A q t = some (A', q ++ [t]) ∧ LinkInv A₀ root popped A' ∧
      (A'.states t).failure = some (linkTarget A root i x) ∧
      ∀ s, s ≠ t → (A'.states s).failure = (A.states s).failure := by
  obtain ⟨htin, htr, htd⟩ := child_inTrie hI hx ht
  have h₁ := LinkInv.allocate h
  obtain ⟨fs, hfs⟩ := Option.ne_none_iff_exists'.mp (hdeep x hx hxr le_rfl)
  obtain ⟨hfsin, hfsd, hfsl⟩ := h.failure x fs hx hxr hfs
  obtain ⟨res, hres, hspec⟩ := failureSearch_spec hI h.keeps h.failure i _ fs
    (hfsl.imp_right fun h' => ⟨hfsin, h'⟩)
    (show _ < (A.states fs).depth + 1 by rw [h.keeps.depth]; omega)
  have hres₁ : failureSearch A.allocate.2 root i ((A.states fs).depth + 1) fs = some res := by
    rw [failureSearch_congr h.keeps h₁.keeps h.failure i (D := (A₀.states fs).depth)
      (fun _ _ _ => rfl) _ fs hfsin le_rfl]
    exact hres
  have hpush : yrAcQueuePush A q t = (A.allocate.2, q ++ [t], .success) :=
    yrAcQueuePush_of_ok (by rw [h.keeps.ok]; exact hok _ h.keeps.calls)
  unfold FailureLinks.linkChild
  simp only [linkTarget, hpush, allocate_states, hfs, hres, hres₁, Option.bind_eq_bind,
    Option.some_bind]
  cases res with
  | none =>
    exact ⟨_, rfl, LinkInv.linkRoot hO h₁ hI htin htr hunl, by simp, fun s hs => by simp [hs]⟩
  | some temp =>
    obtain ⟨htempin, htempr, htempd⟩ := hspec temp rfl
    obtain ⟨A', hA', hinv, hfail⟩ := LinkInv.appendFailureMatches hO h₁ htin htr hunl htempin
      htempr (by omega) (hdeep temp htempin htempr (by omega))
    exact ⟨A', by simp [hA'], hinv, by simp [hfail], fun s hs => by simp [hfail, hs]⟩

end Update

section Pop

variable (hO : OwnLists A₀ root) (hI : TrieInv A₀ root) (hok : AllocationsSucceed A₀) (i : UInt8)
include hO hI hok

theorem LinkInv.linkChildren {x : Nat} (hx : InTrie A₀ root x) (hxr : x ≠ root) :
    ∀ (cs : List Nat) (A : Arena) (q : Queue), LinkInv A₀ root popped A → cs.Nodup →
      (∀ t ∈ cs, t ∈ children A₀ x) → (∀ t ∈ cs, (A.states t).failure = none) →
      (∀ y, InTrie A₀ root y → y ≠ root → (A₀.states y).depth ≤ (A₀.states x).depth →
        (A.states y).failure ≠ none) →
      ∃ A', cs.foldlM (fun p t => FailureLinks.linkChild i root x p.1 p.2 t) (A, q) = some (A', q ++ cs) ∧
        LinkInv A₀ root popped A' ∧ (∀ s ∈ cs, (A'.states s).failure = some (linkTarget A root i x)) ∧
        ∀ s, s ∉ cs → (A'.states s).failure = (A.states s).failure
  | [], A, q, h, _, _, _, _ => ⟨A, by simp, h, by simp, fun _ _ => rfl⟩
  | t :: cs, A, q, h, hnd, hch, hunl, hdeep => by
    rw [List.nodup_cons] at hnd
    obtain ⟨A₁, h₁, hinv₁, ht₁, hs₁⟩ := LinkInv.linkChild hO h hI hok i hx hxr
      (hch t (List.mem_cons_self _ _)) (hunl t (List.mem_cons_self _ _)) hdeep q
    have hne : ∀ s ∈ cs, s ≠ t := fun s hs h' => hnd.1 (h' ▸ hs)
    have htd := (child_inTrie hI hx (hch t (List.mem_cons_self _ _))).2.2
    have htarget : linkTarget A₁ root i x = linkTarget A root i x :=
      linkTarget_congr h.keeps hinv₁.keeps h.failure i hx hxr fun s _ hs =>
        hs₁ s fun h' => by rw [h', htd] at hs; omega
    obtain ⟨A', h', hinv', hin', hout'⟩ := LinkInv.linkChildren hx hxr cs A₁ (q ++ [t]) hinv₁
      hnd.2 (fun s hs => hch s (List.mem_cons_of_mem _ hs))
      (fun s hs => by rw [hs₁ s (hne s hs)]; exact hunl s (List.mem_cons_of_mem _ hs))
      (fun y hy hyr hyd => by
        by_cases hyt : y = t
        · rw [hyt, ht₁]; exact Option.some_ne_none _
        · rw [hs₁ y hyt]; exact hdeep y hy hyr hyd)
    refine ⟨A', by simp [h₁, h'], hinv', fun s hs => ?_, fun s hs => ?_⟩
    · rcases List.mem_cons.mp hs with rfl | hs
      · rw [hout' s hnd.1]; exact ht₁
      · rw [hin' s hs, htarget]
    · rw [List.mem_cons, not_or] at hs
      rw [hout' s hs.2, hs₁ s hs.1]

theorem LinkInv.popState {x : Nat} (h : LinkInv A₀ root popped A) (hx : InTrie A₀ root x)
    (hxr : x ≠ root) (hunl : ∀ t ∈ children A₀ x, (A.states t).failure = none)
    (hdeep : ∀ y, InTrie A₀ root y → y ≠ root → (A₀.states y).depth ≤ (A₀.states x).depth →
      (A.states y).failure ≠ none) (q : Queue) :
    ∃ A', FailureLinks.popState i root A x q = some (A', q ++ children A₀ x) ∧
      LinkInv A₀ root (fun v => popped v ∨ v = x) A' ∧
      (∀ s ∈ children A₀ x, (A'.states s).failure = some (linkTarget A root i x)) ∧
      ∀ s, s ∉ children A₀ x → (A'.states s).failure = (A.states s).failure := by
  obtain ⟨A₁, h₁, hinv₁, hs₁⟩ := LinkInv.appendRootMatches hO h hI hx hxr (hdeep x hx hxr le_rfl)
  obtain ⟨w, hw⟩ := hx
  obtain ⟨A', h', hinv', hin', hout'⟩ := LinkInv.linkChildren hO hI hok i ⟨w, hw⟩ hxr
    (children A₀ x) A₁ q hinv₁ (children_nodup hI hw) (fun _ => id)
    (fun s hs => by rw [hs₁]; exact hunl s hs) (fun y hy hyr hyd => by rw [hs₁]; exact hdeep y hy hyr hyd)
  have htarget : linkTarget A₁ root i x = linkTarget A root i x :=
    linkTarget_congr h.keeps hinv₁.keeps h.failure i ⟨w, hw⟩ hxr fun s _ _ => hs₁ s
  refine ⟨A', ?_, hinv', fun s hs => by rw [hin' s hs, htarget], fun s hs => by rw [hout' s hs, hs₁]⟩
  simp only [FailureLinks.popState, h₁, Option.bind_eq_bind, Option.some_bind,
    hinv₁.keeps.children, h']

end Pop

end YaraAhoCorasick.FailureSteps
