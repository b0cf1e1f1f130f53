import YaraAhoCorasick.SiblingLinks

namespace YaraAhoCorasick.FailureTargets

open YaraAhoCorasick.Tokens YaraAhoCorasick.Automaton YaraAhoCorasick.FailureLinks
  YaraAhoCorasick.Trie YaraAhoCorasick.OwnRecords YaraAhoCorasick.Levels
  YaraAhoCorasick.FailureInvariant YaraAhoCorasick.FailureSteps YaraAhoCorasick.FailureRun

variable {A₀ A : Arena} {root : Nat} {i : UInt8}

theorem bfsLoop_inv (P : Arena → Prop) (R : Nat × Arena → Prop)
    (hstep : ∀ A x q A' q', P A → R (x, A) → popState i root A x q = some (A', q') → P A') :
    ∀ fuel A q A', P A → (∀ p ∈ bfsTrace i root fuel A q, R p) →
      bfsLoop i root fuel A q = some A' → P A'
  | 0, _, _, _, _, _, h => by simp [bfsLoop] at h
  | _ + 1, A, [], A', hP, _, h => by
    simp only [bfsLoop, Option.some.injEq] at h
    exact h ▸ hP
  | fuel + 1, A, x :: q, A', hP, hR, h => by
    rcases hp : popState i root A x q with _ | ⟨A₁, q₁⟩
    · simp [bfsLoop, hp] at h
    simp only [bfsLoop, hp, Option.bind_eq_bind, Option.some_bind] at h
    have htr : bfsTrace i root (fuel + 1) A (x :: q) =
        (x, A) :: bfsTrace i root fuel A₁ q₁ := by
      simp only [bfsTrace, hp]
    rw [htr] at hR
    exact bfsLoop_inv P R hstep fuel A₁ q₁ A'
      (hstep A x q A₁ q₁ hP (hR _ (List.mem_cons_self _ _)) hp)
      (fun p hp' => hR p (List.mem_cons_of_mem _ hp')) h

/-- The state of the longest run of bytes `i`, at most `k` of them, that labels a state of the
trie; the root when not even `[i]` does. -/
def runState (A : Arena) (root : Nat) (i : UInt8) : Nat → Nat
  | 0 => root
  | k + 1 => (reach A root (List.replicate (k + 1) i)).getD (runState A root i k)

theorem runState_of_reach {k s : Nat} (h : reach A root (List.replicate k i) = some s) :
    runState A root i k = s := by
  cases k with
  | zero => exact Option.some.inj h
  | succ k => simp [runState, h]

theorem runState_succ_of_none {k : Nat} (h : reach A root (List.replicate (k + 1) i) = none) :
    runState A root i (k + 1) = runState A root i k := by
  simp [runState, h]

theorem reach_runState (A : Arena) (root : Nat) (i : UInt8) (k : Nat) : ∃ j ≤ k,
    reach A root (List.replicate j i) = some (runState A root i k) ∧
      (j < k → reach A root (List.replicate (j + 1) i) = none) := by
  induction k with
  | zero => exact ⟨0, le_rfl, rfl, fun h => absurd h (Nat.lt_irrefl 0)⟩
  | succ k ih =>
    rcases h : reach A root (List.replicate (k + 1) i) with _ | s
    · obtain ⟨j, hj, hr, hlt⟩ := ih
      refine ⟨j, by omega, by rw [runState_succ_of_none h]; exact hr, fun hjk => ?_⟩
      rcases Nat.lt_or_ge j k with hjk' | hjk'
      · exact hlt hjk'
      · rwa [show j = k by omega]
    · exact ⟨k + 1, le_rfl, by rw [runState_of_reach h]; exact h,
        fun h' => absurd h' (Nat.lt_irrefl _)⟩

theorem reach_replicate_pred {k s : Nat} (h : reach A root (List.replicate (k + 1) i) = some s) :
    ∃ u, reach A root (List.replicate k i) = some u ∧ yrAcNextState A u i = some s := by
  rw [List.replicate_succ', reach_append_singleton] at h
  obtain ⟨u, hu, hs⟩ := Option.bind_eq_some.mp h
  exact ⟨u, hu, hs⟩

/-- Every linked state of the trie other than the root is linked to the state of the longest run
of bytes `i` shorter than its label that labels a state. -/
def LinksToRuns (A₀ : Arena) (root : Nat) (i : UInt8) (A : Arena) : Prop :=
  ∀ v u, InTrie A₀ root v → v ≠ root → (A.states v).failure = some u →
    u = runState A₀ root i ((A₀.states v).depth - 1)

section Target

variable (hI : TrieInv A₀ root) (hK : Keeps A₀ A) (hL : LinksToRuns A₀ root i A)
include hI hK hL

theorem linkTarget_eq_runState {x : Nat} (hx : InTrie A₀ root x) (hxr : x ≠ root)
    (hdeep : ∀ y, InTrie A₀ root y → y ≠ root →
      (A₀.states y).depth ≤ (A₀.states x).depth → (A.states y).failure ≠ none) :
    linkTarget A root i x = runState A₀ root i (A₀.states x).depth := by
  obtain ⟨fs, hfs⟩ := Option.ne_none_iff_exists'.mp (hdeep x hx hxr le_rfl)
  have hfs' := hL x fs hx hxr hfs
  obtain ⟨d, hd⟩ : ∃ d, (A₀.states x).depth = d + 1 :=
    ⟨_, (Nat.succ_pred_eq_of_pos (depth_pos hI hx hxr)).symm⟩
  rw [hd, Nat.add_sub_cancel] at hfs'
  rw [hd]
  unfold linkTarget
  rw [hfs]
  dsimp only
  rw [hK.depth]
  obtain ⟨j, hj, hrj, hlt⟩ := reach_runState A₀ root i d
  rw [← hfs'] at hrj
  have hdj : (A₀.states fs).depth = j := by rw [hI.depth _ _ hrj, List.length_replicate]
  rcases hnext : reach A₀ root (List.replicate (d + 1) i) with _ | s
  · rw [runState_succ_of_none hnext, ← hfs']
    have hnone : yrAcNextState A fs i = none := by
      have hj1 : reach A₀ root (List.replicate (j + 1) i) = none := by
        rcases Nat.lt_or_ge j d with hjd | hjd
        · exact hlt hjd
        · rwa [show j = d by omega]
      rw [List.replicate_succ', reach_append_singleton, hrj] at hj1
      rw [hK.nextState]
      exact hj1
    rw [hdj]
    rcases j with _ | j
    · obtain rfl : fs = root := (Option.some.inj hrj).symm
      simp [failureSearch, hnone]
    · have hfsr : fs ≠ root := fun h => by
        rw [h] at hrj
        simpa using hI.inj _ [] _ hrj rfl
      obtain ⟨u, hu⟩ := Option.ne_none_iff_exists'.mp
        (hdeep fs ⟨_, hrj⟩ hfsr (by rw [hdj, hd]; omega))
      obtain ⟨u', hu', hnu⟩ := reach_replicate_pred hrj
      have hu'' : u = u' := by
        rw [hL fs u ⟨_, hrj⟩ hfsr hu, hdj, Nat.add_sub_cancel]
        exact runState_of_reach hu'
      subst hu''
      simp [failureSearch, hnone, hfsr, hu, hK.nextState, hnu]
  · rw [runState_of_reach hnext]
    obtain ⟨u, hu, hnu⟩ := reach_replicate_pred hnext
    obtain rfl : u = fs := by rw [hfs', runState_of_reach hu]
    simp [failureSearch, hK.nextState, hnu]

end Target

theorem linksToRuns_start (hI : TrieInv A₀ root) {A₁ : Arena} (hL : LevelInv A₀ root 1 A₁) :
    LinksToRuns A₀ root i A₁ := by
  intro v u hv hvr hf
  obtain ⟨hu, hud, -⟩ := hL.inv.failure v u hv hvr hf
  have hv1 := (hL.linked v hv hvr).mp (by rw [hf]; exact Option.some_ne_none _)
  rw [show (A₀.states v).depth - 1 = 0 by omega]
  by_contra hne
  have := depth_pos hI hu hne
  omega

section Run

variable (hO : OwnLists A₀ root) (hI : TrieInv A₀ root) (hok : AllocationsSucceed A₀)
include hO hI hok

theorem LinksToRuns.popState {x : Nat} {q q' : Queue} {A' : Arena}
    (hL : LinksToRuns A₀ root i A) (hR : (∃ popped, LinkInv A₀ root popped A) ∧
      InTrie A₀ root x ∧ x ≠ root ∧
      (∀ t ∈ children A₀ x, (A.states t).failure = none) ∧
      ∀ v, InTrie A₀ root v → (A₀.states v).depth ≤ (A₀.states x).depth →
        (A.states v).failure ≠ none)
    (hp : FailureLinks.popState i root A x q = some (A', q')) : LinksToRuns A₀ root i A' := by
  obtain ⟨⟨popped, h⟩, hx, hxr, hunl, hdeep⟩ := hR
  obtain ⟨A'', hp', -, hin, hout⟩ :=
    LinkInv.popState hO hI hok i h hx hxr hunl (fun y hy _ hyd => hdeep y hy hyd) q
  obtain rfl : A'' = A' := by rw [hp] at hp'; exact (Prod.mk.inj (Option.some.inj hp')).1.symm
  intro v u hv hvr hf
  by_cases hvx : v ∈ children A₀ x
  · rw [hin v hvx, Option.some.injEq] at hf
    rw [← hf, linkTarget_eq_runState hI h.keeps hL hx hxr fun y hy _ hyd => hdeep y hy hyd,
      (child_inTrie hI hx hvx).2.2, Nat.add_sub_cancel]
  · rw [hout v hvx] at hf
    exact hL v u hv hvr hf

end Run

/-- `yr_ac_create_failure_links` links each state of label `w` to the state of the longest run of
bytes `i` shorter than `w` that labels a state: the link depends on `|w|` alone. -/
theorem create_failure_links_targets {tables : RegexTables} {automaton : AcAutomaton}
    (hB : Built tables A₀ automaton) (hok : AllocationsSucceed A₀) (i : UInt8) :
    ∃ A', yrAcCreateFailureLinks i A₀ automaton = some A' ∧
      ∀ w s, reach A₀ automaton.root w = some s → w ≠ [] →
        (A'.states s).failure = some (runState A₀ automaton.root i (w.length - 1)) := by
  have hI := hB.trieInv
  have hO := Built.ownLists hB
  obtain ⟨A₁, hfold, hL⟩ := levelInv_start hO hI (Built.failuresUnset hB) hok
  obtain ⟨⟨A', hrun, hL'⟩, -, hTl, hTr⟩ := levelsRun hO hI hok i maxToken 1 A₁ le_rfl
    (level_eq_nil hI (by omega)) hL (A₁.stateCount + 1)
    (by rw [hL.inv.keeps.stateCount]; have := levels_length_lt hI maxToken; omega)
  have hP := bfsLoop_inv (LinksToRuns A₀ automaton.root i)
    (fun p => (∃ popped, LinkInv A₀ automaton.root popped p.2) ∧
      InTrie A₀ automaton.root p.1 ∧ p.1 ≠ automaton.root ∧
      (∀ t ∈ children A₀ p.1, (p.2.states t).failure = none) ∧
      ∀ v, InTrie A₀ automaton.root v → (A₀.states v).depth ≤ (A₀.states p.1).depth →
        (p.2.states v).failure ≠ none)
    (fun _ _ _ _ _ hP hR hp => hP.popState hO hI hok hR hp) _ A₁ _ A'
    (linksToRuns_start hI hL) (fun p hp => ⟨(hTr p hp).1, (hTr p hp).2.1, (hTr p hp).2.2.1,
      (hTr p hp).2.2.2, hTl p hp⟩) hrun
  refine ⟨A', by simp only [yrAcCreateFailureLinks, hfold]; exact hrun, fun w s hs hw => ?_⟩
  have hsr : s ≠ automaton.root := fun h => hw (hI.inj _ [] _ (h ▸ hs) rfl)
  obtain ⟨u, hu⟩ := Option.ne_none_iff_exists'.mp ((hL'.linked s ⟨w, hs⟩ hsr).mpr
    (by have := depth_le hI ⟨w, hs⟩; omega))
  rw [hu, hP s u ⟨w, hs⟩ hsr hu, hI.depth _ _ hs]

theorem create_failure_links_targets_sibling :
    Built literalTables SiblingLinks.siblingArena ⟨0⟩ ∧
      AllocationsSucceed SiblingLinks.siblingArena ∧
      ∃ A', yrAcCreateFailureLinks 97 SiblingLinks.siblingArena ⟨0⟩ = some A' ∧
        ∀ w s, reach SiblingLinks.siblingArena 0 w = some s → w ≠ [] →
          (A'.states s).failure = some (runState SiblingLinks.siblingArena 0 97 (w.length - 1)) :=
  ⟨SiblingLinks.siblingArena_built, SiblingLinks.siblingArena_allocationsSucceed,
    create_failure_links_targets SiblingLinks.siblingArena_built
      SiblingLinks.siblingArena_allocationsSucceed 97⟩

example : runState SiblingLinks.siblingArena 0 97 1 = 1 ∧
    runState SiblingLinks.siblingArena 0 97 3 = 1 := by decide

end YaraAhoCorasick.FailureTargets
