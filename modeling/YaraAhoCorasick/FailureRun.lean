import YaraAhoCorasick.FailureSteps

namespace YaraAhoCorasick.FailureRun

open YaraAhoCorasick.Tokens YaraAhoCorasick.Automaton YaraAhoCorasick.FailureLinks
  YaraAhoCorasick.Trie YaraAhoCorasick.MatchList YaraAhoCorasick.OwnRecords
  YaraAhoCorasick.Levels YaraAhoCorasick.FailureInvariant YaraAhoCorasick.FailureSteps

variable {A₀ A B : Arena} {root : Nat} {popped : Nat → Prop}

theorem LinkInv.congr_popped {popped' : Nat → Prop} (h : LinkInv A₀ root popped A)
    (hp : ∀ v, popped v ↔ popped' v) : LinkInv A₀ root popped' A := by
  obtain rfl : popped = popped' := funext fun v => propext (hp v)
  exact h

/-- The non-root states of the trie above level `k`: those the loop has popped when its queue
is level `k`. -/
def Below (A₀ : Arena) (root k v : Nat) : Prop :=
  InTrie A₀ root v ∧ v ≠ root ∧ (A₀.states v).depth < k

/-- Linked children of one state have the same failure link. -/
def SiblingsAgree (A₀ : Arena) (root : Nat) (A : Arena) : Prop :=
  ∀ x t₁ t₂, InTrie A₀ root x → t₁ ∈ children A₀ x → t₂ ∈ children A₀ x →
    (A.states t₁).failure ≠ none → (A.states t₂).failure ≠ none →
    (A.states t₁).failure = (A.states t₂).failure

/-- The state of the traversal when its queue is level `k`: the levels above popped, exactly
the non-root states up to level `k` linked, and siblings linked alike. -/
structure LevelInv (A₀ : Arena) (root k : Nat) (A : Arena) : Prop where
  inv : LinkInv A₀ root (Below A₀ root k) A
  linked : ∀ v, InTrie A₀ root v → v ≠ root →
    ((A.states v).failure ≠ none ↔ (A₀.states v).depth ≤ k)
  siblings : SiblingsAgree A₀ root A

def PopsLinked (A₀ : Arena) (root : Nat) (T : List (Nat × Arena)) : Prop :=
  ∀ p ∈ T, ∀ v, InTrie A₀ root v → (A₀.states v).depth ≤ (A₀.states p.1).depth →
    (p.2.states v).failure ≠ none

/-- At each pop of `T` the one-iteration lemma `LinkInv.popState` applies: the arena keeps the
invariant, and the popped state is a non-root state of the trie whose children are unlinked. -/
def PopsReady (A₀ : Arena) (root : Nat) (T : List (Nat × Arena)) : Prop :=
  ∀ p ∈ T, (∃ popped, LinkInv A₀ root popped p.2) ∧ InTrie A₀ root p.1 ∧ p.1 ≠ root ∧
    ∀ t ∈ children A₀ p.1, (p.2.states t).failure = none

section Trie

variable (hI : TrieInv A₀ root)
include hI

theorem below_succ {k : Nat} (hk : 1 ≤ k) (v : Nat) :
    Below A₀ root (k + 1) v ↔ Below A₀ root k v ∨ v ∈ level A₀ root k := by
  constructor
  · rintro ⟨hv, hvr, hd⟩
    rcases Nat.lt_succ_iff_lt_or_eq.mp hd with hd | hd
    · exact .inl ⟨hv, hvr, hd⟩
    · exact .inr ((mem_level_iff hI hv k).mpr hd)
  · rintro (⟨hv, hvr, hd⟩ | hv)
    · exact ⟨hv, hvr, by omega⟩
    · have hin := inTrie_of_mem_level hI hv
      exact ⟨hin, ne_root_of_mem_level hI hk hv, by rw [(mem_level_iff hI hin k).mp hv]; omega⟩

theorem SiblingsAgree.update (hS : SiblingsAgree A₀ root A) {x f : Nat} (hx : InTrie A₀ root x)
    (hin : ∀ t ∈ children A₀ x, (B.states t).failure = some f)
    (hout : ∀ s, s ∉ children A₀ x → (B.states s).failure = (A.states s).failure) :
    SiblingsAgree A₀ root B := by
  intro x' t₁ t₂ hx' h₁ h₂ hn₁ hn₂
  by_cases hxx : x' = x
  · subst hxx
    rw [hin t₁ h₁, hin t₂ h₂]
  · obtain ⟨w, hw⟩ := hx
    obtain ⟨w', hw'⟩ := hx'
    have hnot : ∀ t ∈ children A₀ x', t ∉ children A₀ x := fun t ht ht' =>
      hxx (parent_unique hI hw' hw ht ht')
    simp only [hout t₁ (hnot t₁ h₁), hout t₂ (hnot t₂ h₂)] at hn₁ hn₂ ⊢
    exact hS x' t₁ t₂ ⟨w', hw'⟩ h₁ h₂ hn₁ hn₂

end Trie

section Run

variable (hO : OwnLists A₀ root) (hI : TrieInv A₀ root) (hok : AllocationsSucceed A₀) (i : UInt8)
include hO hI hok

theorem levelPass {k : Nat} (hk : 1 ≤ k) :
    ∀ (xs done : List Nat) (A : Arena) (S : Queue), done ++ xs = level A₀ root k →
      LinkInv A₀ root (fun v => Below A₀ root k v ∨ v ∈ done) A → SiblingsAgree A₀ root A →
      (∀ v, InTrie A₀ root v → v ≠ root → ((A.states v).failure ≠ none ↔
        (A₀.states v).depth ≤ k ∨ v ∈ done.flatMap (children A₀))) →
      ∃ A', (∀ n, bfsLoop i root (xs.length + n) A (xs ++ S) =
          bfsLoop i root n A' (S ++ xs.flatMap (children A₀))) ∧
        (∃ T, T.map Prod.fst = xs ∧ PopsLinked A₀ root T ∧ PopsReady A₀ root T ∧ ∀ n,
          bfsTrace i root (xs.length + n) A (xs ++ S) =
            T ++ bfsTrace i root n A' (S ++ xs.flatMap (children A₀))) ∧
        LinkInv A₀ root (fun v => Below A₀ root k v ∨ v ∈ level A₀ root k) A' ∧
        SiblingsAgree A₀ root A' ∧
        ∀ v, InTrie A₀ root v → v ≠ root → ((A'.states v).failure ≠ none ↔
          (A₀.states v).depth ≤ k ∨ v ∈ level A₀ root (k + 1))
  | [], done, A, S, hd, h, hS, hl => by
    rw [List.append_nil] at hd
    subst hd
    exact ⟨A, fun n => by simp, ⟨[], rfl, fun _ h => absurd h (List.not_mem_nil _),
      fun _ h => absurd h (List.not_mem_nil _), fun n => by simp⟩, h, hS,
      fun v hv hvr => by rw [hl v hv hvr]; rfl⟩
  | x :: xs, done, A, S, hd, h, hS, hl => by
    have hnd : (done ++ x :: xs).Nodup := hd ▸ level_nodup hI k
    have hxl : x ∈ level A₀ root k := hd ▸ List.mem_append_right _ (List.mem_cons_self _ _)
    have hx := inTrie_of_mem_level hI hxl
    have hxd := (mem_level_iff hI hx k).mp hxl
    have hxr := ne_root_of_mem_level hI hk hxl
    have hxdone : x ∉ done := fun h' => List.disjoint_of_nodup_append hnd h' (List.mem_cons_self _ _)
    have hunl : ∀ t ∈ children A₀ x, (A.states t).failure = none := fun t ht => by
      obtain ⟨ht', htr, htd⟩ := child_inTrie hI hx ht
      by_contra hne
      rcases (hl t ht' htr).mp hne with hdep | hmem
      · omega
      · obtain ⟨y, hy, hty⟩ := List.mem_flatMap.mp hmem
        obtain ⟨w, hw⟩ := hx
        obtain ⟨wy, hwy, -⟩ := (mem_level hI k y).mp (hd ▸ List.mem_append_left _ hy)
        exact hxdone (parent_unique hI hwy hw hty ht ▸ hy)
    have hdeep : ∀ y, InTrie A₀ root y → y ≠ root → (A₀.states y).depth ≤ (A₀.states x).depth →
        (A.states y).failure ≠ none := fun y hy hyr hyd => (hl y hy hyr).mpr (.inl (hxd ▸ hyd))
    obtain ⟨A₁, h₁, hinv₁, hin₁, hout₁⟩ := LinkInv.popState hO hI hok i h hx hxr hunl hdeep (xs ++ S)
    obtain ⟨A', hrun, ⟨T, hT, hTl, hTr, htr⟩, hinv', hS', hl'⟩ :=
      levelPass hk xs (done ++ [x]) A₁ (S ++ children A₀ x)
      (by rw [List.append_assoc]; exact hd)
      (LinkInv.congr_popped hinv₁ fun v => by simp [or_assoc])
      (hS.update hI hx hin₁ hout₁)
      (fun v hv hvr => by
        rw [List.flatMap_append, List.mem_append, List.flatMap_singleton]
        by_cases hvx : v ∈ children A₀ x
        · simp only [hvx, or_true, iff_true, hin₁ v hvx]
          exact Option.some_ne_none _
        · rw [hout₁ v hvx, hl v hv hvr]
          simp [hvx])
    have hpop : PopsLinked A₀ root ((x, A) :: T) := by
      rintro p (_ | ⟨_, hp⟩)
      · intro v hv hvd
        by_cases hvr : v = root
        · rw [hvr, h.rootFailure]
          exact Option.some_ne_none _
        · exact hdeep v hv hvr hvd
      · exact hTl p hp
    have hready : PopsReady A₀ root ((x, A) :: T) := by
      rintro p (_ | ⟨_, hp⟩)
      · exact ⟨⟨_, h⟩, hx, hxr, hunl⟩
      · exact hTr p hp
    refine ⟨A', fun n => ?_, ⟨(x, A) :: T, by simp [hT], hpop, hready, fun n => ?_⟩, hinv', hS', hl'⟩ <;>
    rw [List.length_cons, show xs.length + 1 + n = (xs.length + n) + 1 by omega, List.cons_append]
    · simp only [bfsLoop, h₁, Option.bind_eq_bind, Option.some_bind, List.append_assoc, hrun,
        List.flatMap_cons]
    · simp only [bfsTrace, h₁, List.append_assoc, htr, List.flatMap_cons, List.cons_append]

theorem levelsRun : ∀ d k (A : Arena), 1 ≤ k → level A₀ root (k + d) = [] →
    LevelInv A₀ root k A → ∀ n, (levels A₀ root k d).length < n →
      (∃ A', bfsLoop i root n A (level A₀ root k) = some A' ∧ LevelInv A₀ root (k + d) A') ∧
        (bfsTrace i root n A (level A₀ root k)).map Prod.fst = levels A₀ root k d ∧
        PopsLinked A₀ root (bfsTrace i root n A (level A₀ root k)) ∧
        PopsReady A₀ root (bfsTrace i root n A (level A₀ root k))
  | 0, k, A, _, hnil, h, n, hn => by
    obtain ⟨n, rfl⟩ : ∃ m, n = m + 1 := ⟨n - 1, by omega⟩
    rw [show level A₀ root k = [] from hnil]
    exact ⟨⟨A, rfl, h⟩, rfl, fun _ h => absurd h (List.not_mem_nil _),
      fun _ h => absurd h (List.not_mem_nil _)⟩
  | d + 1, k, A, hk, hnil, h, n, hn => by
    obtain ⟨A₁, hrun, ⟨T, hT, hTl, hTr, htr⟩, hinv₁, hS₁, hl₁⟩ :=
      levelPass hO hI hok i hk (level A₀ root k) [] A []
      (List.nil_append _) (LinkInv.congr_popped h.inv fun v => by simp) h.siblings
      (fun v hv hvr => by simpa using h.linked v hv hvr)
    have hL : LevelInv A₀ root (k + 1) A₁ :=
      ⟨LinkInv.congr_popped hinv₁ fun v => (below_succ hI hk v).symm,
        fun v hv hvr => by rw [hl₁ v hv hvr, mem_level_iff hI hv]; omega, hS₁⟩
    have hlen : (levels A₀ root k (d + 1)).length =
        (level A₀ root k).length + (levels A₀ root (k + 1) d).length := by simp [levels]
    obtain ⟨⟨A', h', hL'⟩, hT', hTl', hTr'⟩ := levelsRun d (k + 1) A₁ (by omega)
      (by rw [show k + 1 + d = k + (d + 1) by omega]; exact hnil) hL
      (n - (level A₀ root k).length) (by omega)
    have hrun' := hrun (n - (level A₀ root k).length)
    have htr' := htr (n - (level A₀ root k).length)
    rw [Nat.add_sub_cancel' (by omega), List.append_nil, List.nil_append] at hrun' htr'
    refine ⟨⟨A', by rw [hrun']; exact h', by rw [show k + (d + 1) = k + 1 + d by omega]; exact hL'⟩,
      ?_, ?_, ?_⟩ <;> rw [htr']
    · rw [List.map_append, hT]
      exact congrArg (level A₀ root k ++ ·) hT'
    · exact fun p hp => (List.mem_append.mp hp).elim (hTl p) (hTl' p)
    · exact fun p hp => (List.mem_append.mp hp).elim (hTr p) (hTr' p)

end Run

theorem LinkInv.start (hO : OwnLists A₀ root) (hU : FailuresUnset A₀ root) :
    LinkInv A₀ root (fun _ => False) (setFailure A₀ root root) := by
  have hnone : ∀ v, InTrie A₀ root v → v ≠ root →
      ((setFailure A₀ root root).states v).failure = none := fun v ⟨w, hw⟩ hvr => by
    rw [setFailure_failure, if_neg hvr]
    exact hU w v hw
  refine ⟨keeps_setFailure A₀ root root, by simp, by simp, fun v u hv hvr hf => ?_,
    fun _ _ => rfl, fun _ _ _ _ _ => rfl, fun v _ _ => by simp,
    fun v hv _ _ => by rw [slot_setFailure, slot_start hO hv], fun v u hv hvr hf => ?_,
    fun v hv => hv.elim⟩ <;> exact absurd hf (by rw [hnone v hv hvr]; simp)

theorem siblingsAgree_start (hI : TrieInv A₀ root) (hU : FailuresUnset A₀ root) :
    SiblingsAgree A₀ root (setFailure A₀ root root) := by
  intro x t₁ _ hx h₁ _ hn₁
  obtain ⟨⟨w, hw⟩, htr, -⟩ := child_inTrie hI hx h₁
  rw [setFailure_failure, if_neg htr, hU w t₁ hw] at hn₁
  exact absurd rfl hn₁

theorem LinkInv.pushRootChildren (hO : OwnLists A₀ root) (hI : TrieInv A₀ root)
    (hok : AllocationsSucceed A₀) :
    ∀ (cs : List Nat) (A : Arena) (q : Queue), LinkInv A₀ root popped A → cs.Nodup →
      (∀ t ∈ cs, t ∈ children A₀ root) → (∀ t ∈ cs, (A.states t).failure = none) →
      ∃ A', cs.foldl (pushRootChild root) (A, q) = (A', q ++ cs) ∧ LinkInv A₀ root popped A' ∧
        (∀ s ∈ cs, (A'.states s).failure = some root) ∧
        ∀ s, s ∉ cs → (A'.states s).failure = (A.states s).failure
  | [], A, q, h, _, _, _ => ⟨A, by simp, h, by simp, fun _ _ => rfl⟩
  | t :: cs, A, q, h, hnd, hch, hunl => by
    rw [List.nodup_cons] at hnd
    obtain ⟨ht, htr, -⟩ := child_inTrie hI inTrie_root (hch t (List.mem_cons_self _ _))
    have h₁ := LinkInv.linkRoot hO (LinkInv.allocate h) hI ht htr (hunl t (List.mem_cons_self _ _))
    have hstep : pushRootChild root (A, q) t = (setFailure A.allocate.2 t root, q ++ [t]) := by
      simp [pushRootChild, yrAcQueuePush_of_ok (show A.ok A.calls = true by
        rw [h.keeps.ok]; exact hok _ h.keeps.calls)]
    have hne : ∀ s ∈ cs, s ≠ t := fun s hs h' => hnd.1 (h' ▸ hs)
    obtain ⟨A', h', hinv', hin', hout'⟩ := LinkInv.pushRootChildren hO hI hok cs _ (q ++ [t]) h₁
      hnd.2 (fun s hs => hch s (List.mem_cons_of_mem _ hs))
      (fun s hs => by simpa [hne s hs] using hunl s (List.mem_cons_of_mem _ hs))
    refine ⟨A', by rw [List.foldl_cons, hstep, h', List.append_assoc]; rfl, hinv', ?_, ?_⟩
    · intro s hs
      rcases List.mem_cons.mp hs with rfl | hs
      · simp [hout' s hnd.1]
      · exact hin' s hs
    · intro s hs
      rw [List.mem_cons, not_or] at hs
      simp [hout' s hs.2, hs.1]

theorem levelInv_start (hO : OwnLists A₀ root) (hI : TrieInv A₀ root)
    (hU : FailuresUnset A₀ root) (hok : AllocationsSucceed A₀) :
    ∃ A₁, (children (setFailure A₀ root root) root).foldl (pushRootChild root)
        (setFailure A₀ root root, []) = (A₁, level A₀ root 1) ∧ LevelInv A₀ root 1 A₁ := by
  have h₀ := LinkInv.start hO hU
  have hch : children (setFailure A₀ root root) root = level A₀ root 1 := by
    rw [h₀.keeps.children]
    simp [level]
  obtain ⟨A₁, hfold, h₁, hin₁, hout₁⟩ := LinkInv.pushRootChildren hO hI hok (level A₀ root 1)
    _ [] h₀ (level_nodup hI 1) (by simp [level])
    (fun t ht => by
      obtain ⟨w, hw, -⟩ := (mem_level hI 1 t).mp ht
      rw [setFailure_failure, if_neg (ne_root_of_mem_level hI Nat.one_pos ht)]
      exact hU w t hw)
  refine ⟨A₁, by rw [hch, hfold, List.nil_append], LinkInv.congr_popped h₁ fun v =>
      ⟨False.elim, fun ⟨hv, hvr, hd⟩ => ?_⟩, fun v hv hvr => ?_,
    (siblingsAgree_start hI hU).update hI inTrie_root
      (fun t ht => hin₁ t (by simpa [level] using ht)) fun s hs => hout₁ s (by simpa [level])⟩
  · exact absurd hd (by have := depth_pos hI hv hvr; omega)
  · have hpos := depth_pos hI hv hvr
    by_cases hv1 : v ∈ level A₀ root 1
    · rw [hin₁ v hv1, (mem_level_iff hI hv 1).mp hv1]
      simp
    · obtain ⟨w, hw⟩ := hv
      rw [hout₁ v hv1, setFailure_failure, if_neg hvr, hU w v hw, mem_level_iff hI ⟨w, hw⟩] at *
      simp only [ne_eq, not_true_eq_false, false_iff, not_le]
      omega

theorem createFailureLinks_run (hO : OwnLists A₀ root) (hI : TrieInv A₀ root)
    (hU : FailuresUnset A₀ root) (hok : AllocationsSucceed A₀) (i : UInt8) :
    ∃ A', yrAcCreateFailureLinks i A₀ ⟨root⟩ = some A' ∧
      LinkInv A₀ root (fun v => InTrie A₀ root v ∧ v ≠ root) A' ∧
      (∀ v, InTrie A₀ root v → v ≠ root → (A'.states v).failure ≠ none) ∧
      SiblingsAgree A₀ root A' ∧
      (createFailureLinksTrace i A₀ ⟨root⟩).map Prod.fst = levels A₀ root 1 maxToken ∧
      PopsLinked A₀ root (createFailureLinksTrace i A₀ ⟨root⟩) := by
  obtain ⟨A₁, hfold, hL⟩ := levelInv_start hO hI hU hok
  obtain ⟨⟨A', hrun, hL'⟩, hT, hTl, -⟩ := levelsRun hO hI hok i maxToken 1 A₁ le_rfl
    (level_eq_nil hI (by omega)) hL (A₁.stateCount + 1)
    (by rw [hL.inv.keeps.stateCount]; have := levels_length_lt hI maxToken; omega)
  have hbelow : ∀ v, InTrie A₀ root v → (A₀.states v).depth ≤ 1 + maxToken := fun v hv => by
    have := depth_le hI hv; omega
  refine ⟨A', ?_, LinkInv.congr_popped hL'.inv fun v => ⟨fun ⟨hv, hvr, _⟩ => ⟨hv, hvr⟩,
    fun ⟨hv, hvr⟩ => ⟨hv, hvr, by have := depth_le hI hv; omega⟩⟩,
    fun v hv hvr => (hL'.linked v hv hvr).mpr (hbelow v hv), hL'.siblings, ?_⟩ <;>
  simp only [yrAcCreateFailureLinks, createFailureLinksTrace, hfold]
  · exact hrun
  · exact ⟨hT, hTl⟩

theorem Keeps.inTrie (hK : Keeps A₀ A) (v : Nat) : InTrie A root v ↔ InTrie A₀ root v := by
  simp only [InTrie, hK.reach]

section Final

variable (hO : OwnLists A₀ root) (h : LinkInv A₀ root (fun v => InTrie A₀ root v ∧ v ≠ root) A)
  (hl : ∀ v, InTrie A₀ root v → v ≠ root → (A.states v).failure ≠ none)
include hO h hl

theorem LinkInv.final_chain {v : Nat} (hv : InTrie A₀ root v) :
    Chain A (A.states v).matchHead (pathRecords A₀ A root v ++ ownRecords A₀ root) := by
  by_cases hvr : v = root
  · subst hvr
    rw [pathRecords_root, List.nil_append]
    exact h.chain_root hO
  · have hhead := (LinkInv.head_eq hO h hv hvr (hl v hv hvr)).resolve_right
      fun ⟨_, _, _, hnp⟩ => hnp ⟨hv, hvr⟩
    obtain ⟨L, hL, hcase⟩ := LinkInv.chain_path hO h _ v (Nat.lt_succ_self _)
      (.inr ⟨hv, hl v hv hvr⟩)
    rcases hcase with rfl | ⟨-, u, hu, -⟩
    · rw [hhead]
      exact hL
    · exact absurd ⟨hu.1, hu.2.1⟩ hu.2.2.2.2.1

end Final

def followFailure (A : Arena) : Nat → Nat → Option Nat
  | 0, s => some s
  | n + 1, s => (A.states s).failure.bind (followFailure A n)

theorem followFailure_root (hI : TrieInv A₀ root) (hroot : (A.states root).failure = some root)
    (hF : FailOk A₀ root A) (hl : ∀ v, InTrie A₀ root v → v ≠ root → (A.states v).failure ≠ none) :
    ∀ n v, InTrie A₀ root v → (A₀.states v).depth ≤ n → followFailure A n v = some root
  | 0, v, hv, hd => by
    by_cases hvr : v = root
    · rw [hvr]; rfl
    · exact absurd hd (by have := depth_pos hI hv hvr; omega)
  | n + 1, v, hv, hd => by
    by_cases hvr : v = root
    · rw [hvr]
      simp only [followFailure, hroot, Option.bind_eq_bind, Option.some_bind]
      exact followFailure_root hI hroot hF hl n root inTrie_root (by rw [hI.depth [] root rfl]; simp)
    · obtain ⟨u, hu⟩ := Option.ne_none_iff_exists'.mp (hl v hv hvr)
      obtain ⟨hu', hud, -⟩ := hF v u hv hvr hu
      simp only [followFailure, hu, Option.bind_eq_bind, Option.some_bind]
      exact followFailure_root hI hroot hF hl n u hu' (by omega)

theorem abAutomaton_allocationsSucceed : AllocationsSucceed abAutomaton := fun _ _ => rfl

/-- `yr_ac_create_failure_links` on a built automaton returns, links the root to itself and every
other state to a shallower one, and failure links reach the root within a state's depth. -/
theorem create_failure_links_terminates {tables : RegexTables} {automaton : AcAutomaton}
    (hB : Built tables A automaton) (hok : AllocationsSucceed A) (i : UInt8) :
    ∃ A', yrAcCreateFailureLinks i A automaton = some A' ∧
      (A'.states automaton.root).failure = some automaton.root ∧
      ∀ s, InTrie A' automaton.root s → s ≠ automaton.root →
        ∃ f, (A'.states s).failure = some f ∧ InTrie A' automaton.root f ∧
          (A'.states f).depth < (A'.states s).depth ∧
          ∃ n ≤ (A'.states s).depth, followFailure A' n s = some automaton.root := by
  have hI := hB.trieInv
  obtain ⟨A', hrun, h, hl, -⟩ :=
    createFailureLinks_run (Built.ownLists hB) hI (Built.failuresUnset hB) hok i
  refine ⟨A', hrun, h.rootFailure, fun s hs hsr => ?_⟩
  rw [Keeps.inTrie h.keeps] at hs
  obtain ⟨f, hf⟩ := Option.ne_none_iff_exists'.mp (hl s hs hsr)
  obtain ⟨hf', hfd, -⟩ := h.failure s f hs hsr hf
  refine ⟨f, hf, (Keeps.inTrie h.keeps f).mpr hf', by rw [h.keeps.depth, h.keeps.depth]; exact hfd,
    _, le_rfl, ?_⟩
  exact followFailure_root hI h.rootFailure h.failure hl _ s hs (h.keeps.depth s).ge

theorem create_failure_links_terminates_ab :
    Built literalTables abAutomaton ⟨0⟩ ∧ AllocationsSucceed abAutomaton ∧
      ∃ A', yrAcCreateFailureLinks 0 abAutomaton ⟨0⟩ = some A' ∧
        (A'.states 0).failure = some 0 ∧
        ∀ s, InTrie A' 0 s → s ≠ 0 →
          ∃ f, (A'.states s).failure = some f ∧ InTrie A' 0 f ∧
            (A'.states f).depth < (A'.states s).depth ∧
            ∃ n ≤ (A'.states s).depth, followFailure A' n s = some 0 :=
  ⟨abAutomaton_built, abAutomaton_allocationsSucceed,
    create_failure_links_terminates abAutomaton_built abAutomaton_allocationsSucceed 0⟩

/-- After `yr_ac_create_failure_links` on a built automaton each list is finite without repeats:
the root's is its own records, any other state's its own and then its failure target's. -/
theorem create_failure_links_match_lists {tables : RegexTables} {automaton : AcAutomaton}
    (hB : Built tables A automaton) (hok : AllocationsSucceed A) (i : UInt8) :
    ∃ A', yrAcCreateFailureLinks i A automaton = some A' ∧
      Chain A' (A'.states automaton.root).matchHead (ownRecords A automaton.root) ∧
      (∀ s, InTrie A' automaton.root s → ∃ L, Chain A' (A'.states s).matchHead L ∧ L.Nodup) ∧
      ∀ s, InTrie A' automaton.root s → s ≠ automaton.root → ∃ f L,
        (A'.states s).failure = some f ∧ Chain A' (A'.states f).matchHead L ∧
          Chain A' (A'.states s).matchHead (ownRecords A s ++ L) := by
  have hO := Built.ownLists hB
  obtain ⟨A', hrun, h, hl, -⟩ :=
    createFailureLinks_run hO hB.trieInv (Built.failuresUnset hB) hok i
  refine ⟨A', hrun, h.chain_root hO, fun s hs => ?_, fun s hs hsr => ?_⟩
  · have hc := LinkInv.final_chain hO h hl ((Keeps.inTrie h.keeps s).mp hs)
    exact ⟨_, hc, hc.nodup⟩
  · rw [Keeps.inTrie h.keeps] at hs
    obtain ⟨f, hf⟩ := Option.ne_none_iff_exists'.mp (hl s hs hsr)
    obtain ⟨hf', -, -⟩ := h.failure s f hs hsr hf
    refine ⟨f, _, hf, LinkInv.final_chain hO h hl hf', ?_⟩
    rw [← List.append_assoc, ← pathRecords_of_failure h.failure hs hsr hf]
    exact LinkInv.final_chain hO h hl hs

theorem create_failure_links_match_lists_ab :
    Built literalTables abAutomaton ⟨0⟩ ∧ AllocationsSucceed abAutomaton ∧
      ∃ A', yrAcCreateFailureLinks 0 abAutomaton ⟨0⟩ = some A' ∧
        Chain A' (A'.states 0).matchHead (ownRecords abAutomaton 0) ∧
        (∀ s, InTrie A' 0 s → ∃ L, Chain A' (A'.states s).matchHead L ∧ L.Nodup) ∧
        ∀ s, InTrie A' 0 s → s ≠ 0 → ∃ f L, (A'.states s).failure = some f ∧
          Chain A' (A'.states f).matchHead L ∧
            Chain A' (A'.states s).matchHead (ownRecords abAutomaton s ++ L) :=
  ⟨abAutomaton_built, abAutomaton_allocationsSucceed,
    create_failure_links_match_lists abAutomaton_built abAutomaton_allocationsSucceed 0⟩

end YaraAhoCorasick.FailureRun
