import YaraAhoCorasick.FailureTargets
import YaraAhoCorasick.FailureQueue

namespace YaraAhoCorasick.FailureReports

open YaraAhoCorasick.Tokens YaraAhoCorasick.Automaton YaraAhoCorasick.FailureLinks
  YaraAhoCorasick.Trie YaraAhoCorasick.MatchList YaraAhoCorasick.OwnRecords
  YaraAhoCorasick.FailureInvariant YaraAhoCorasick.FailureSteps YaraAhoCorasick.FailureRun
  YaraAhoCorasick.FailureTargets

/-- `B` holds the strings of the match records of `A`: the failure-link pass writes only the
`next` field of a record. -/
def StringsKept (A B : Arena) : Prop :=
  ∀ m, (B.matchRecords m).string = (A.matchRecords m).string

/-- A relation between arenas that the failure-link updates keep and that holds across an
allocation: every step of the failure-link pass keeps it. -/
structure PassFrame (R : Arena → Arena → Prop) extends FailureQueue.WriteFrame R : Prop where
  allocate : ∀ A, R A A.allocate.2

variable {R : Arena → Arena → Prop} {A₀ A B : Arena} {root : Nat} {i : UInt8}

theorem PassFrame.of_push (hR : PassFrame R) (A : Arena) (q : Queue) (value : Nat) :
    R A (yrAcQueuePush A q value).1 := by
  have h := hR.allocate A
  unfold yrAcQueuePush
  revert h
  rcases A.allocate with ⟨_ | _, B⟩ <;> exact id

theorem PassFrame.of_linkChild (hR : PassFrame R) {current transition : Nat} {q q' : Queue}
    (h : linkChild i root current A q transition = some (B, q')) : R A B := by
  rw [FailureQueue.linkChild_eq] at h
  obtain ⟨B', hB', he⟩ := Option.map_eq_some'.mp h
  cases he
  exact hR.trans (hR.of_push A q transition) (hR.toWriteFrame.of_linkFailure hB')

theorem PassFrame.of_foldlM_linkChild (hR : PassFrame R) {current : Nat} :
    ∀ (ts : List Nat) (p p' : Arena × Queue),
      ts.foldlM (fun p t => linkChild i root current p.1 p.2 t) p = some p' → R p.1 p'.1
  | [], p, _, h => by cases h; exact hR.refl p.1
  | t :: ts, p, p', h => by
    obtain ⟨⟨B, q⟩, hB, h⟩ := Option.bind_eq_some.mp h
    exact hR.trans (hR.of_linkChild hB) (hR.of_foldlM_linkChild ts _ _ h)

theorem PassFrame.of_popState (hR : PassFrame R) {current : Nat} {q q' : Queue}
    (h : popState i root A current q = some (B, q')) : R A B := by
  unfold popState at h
  obtain ⟨A₁, hA₁, h⟩ := Option.bind_eq_some.mp h
  exact hR.trans (hR.toWriteFrame.of_appendRootMatches hA₁) (hR.of_foldlM_linkChild _ _ _ h)

theorem PassFrame.of_pushRootChildren (hR : PassFrame R) (root : Nat) :
    ∀ (ts : List Nat) (p : Arena × Queue), R p.1 (ts.foldl (pushRootChild root) p).1
  | [], p => hR.refl p.1
  | t :: ts, p => by
    rw [List.foldl_cons]
    refine hR.trans ?_ (hR.of_pushRootChildren root ts _)
    rw [FailureQueue.pushRootChild_eq]
    exact hR.trans (hR.of_push p.1 p.2 t) (hR.failure _ t root)

theorem PassFrame.of_createFailureLinks (hR : PassFrame R) {automaton : AcAutomaton}
    (h : yrAcCreateFailureLinks i A automaton = some B) : R A B := by
  unfold yrAcCreateFailureLinks at h
  dsimp only at h
  have h₁ := hR.of_pushRootChildren automaton.root
    (children (setFailure A automaton.root automaton.root) automaton.root)
    (setFailure A automaton.root automaton.root, [])
  rcases hf : (children (setFailure A automaton.root automaton.root) automaton.root).foldl
    (pushRootChild automaton.root) (setFailure A automaton.root automaton.root, [])
    with ⟨A₁, q₁⟩
  rw [hf] at h h₁
  dsimp only at h
  exact hR.trans (hR.failure A automaton.root automaton.root)
    (hR.trans h₁ (bfsLoop_inv (R A₁) (fun _ => True)
      (fun _ _ _ _ _ hP _ hp => hR.trans hP (hR.of_popState hp)) _ _ _ _ (hR.refl A₁)
      (fun _ _ => trivial) h))

theorem stringsKept_passFrame : PassFrame StringsKept where
  refl _ _ := rfl
  trans h₁ h₂ m := (h₂ m).trans (h₁ m)
  failure _ _ _ _ := rfl
  head _ _ _ _ := rfl
  next A m target r := by
    rw [setNext_matchRecords]
    split_ifs with h
    · rw [h]
    · rfl
  allocate _ _ := rfl

theorem keeps_passFrame : PassFrame Keeps :=
  ⟨⟨Keeps.refl, Keeps.trans, keeps_setFailure, keeps_setMatchHead, keeps_setNext⟩,
    keeps_allocate⟩

/-- `yr_ac_create_failure_links` adds no state and no record and keeps every depth, transition,
string and backtrack: it writes only failure links, match heads and `next` fields. -/
theorem create_failure_links_keeps_trie (i : UInt8) (A : Arena) (automaton : AcAutomaton)
    {A' : Arena} (h : yrAcCreateFailureLinks i A automaton = some A') :
    A'.stateCount = A.stateCount ∧
      (∀ s, (A'.states s).depth = (A.states s).depth ∧
        (A'.states s).transitions = (A.states s).transitions) ∧
      A'.matchCount = A.matchCount ∧
      ∀ m, (A'.matchRecords m).string = (A.matchRecords m).string ∧
        (A'.matchRecords m).backtrack = (A.matchRecords m).backtrack :=
  have hK := keeps_passFrame.of_createFailureLinks h
  have hS := stringsKept_passFrame.of_createFailureLinks h
  ⟨hK.stateCount, fun s => ⟨hK.depth s, hK.transitions s⟩, hK.matchCount,
    fun m => ⟨hS m, hK.backtrack m⟩⟩

def abLinked : Arena := (yrAcCreateFailureLinks 0 abArena ⟨0⟩).getD abArena

theorem create_failure_links_keeps_trie_abArena :
    yrAcCreateFailureLinks 0 abArena ⟨0⟩ = some abLinked ∧
      abLinked.stateCount = abArena.stateCount ∧
      (∀ s, (abLinked.states s).depth = (abArena.states s).depth ∧
        (abLinked.states s).transitions = (abArena.states s).transitions) ∧
      abLinked.matchCount = abArena.matchCount ∧
      ∀ m, (abLinked.matchRecords m).string = (abArena.matchRecords m).string ∧
        (abLinked.matchRecords m).backtrack = (abArena.matchRecords m).backtrack :=
  ⟨rfl, create_failure_links_keeps_trie 0 abArena ⟨0⟩ rfl⟩

/-- After `yr_ac_create_failure_links` on a built automaton, every label of the trie leads to the
same state, whose list begins with the entries it had. -/
theorem create_failure_links_keeps_reports {tables : RegexTables} {automaton : AcAutomaton}
    (hB : Built tables A₀ automaton) (hok : AllocationsSucceed A₀) (i : UInt8) :
    ∃ A', yrAcCreateFailureLinks i A₀ automaton = some A' ∧
      ∀ w s ms, reach A₀ automaton.root w = some s → Chain A₀ (A₀.states s).matchHead ms →
        reach A' automaton.root w = some s ∧ ∃ ms', Chain A' (A'.states s).matchHead ms' ∧
          entries A₀ ms <+: entries A' ms' := by
  have hO := Built.ownLists hB
  obtain ⟨A', hrun, h, hl, -⟩ :=
    createFailureLinks_run hO hB.trieInv (Built.failuresUnset hB) hok i
  have hk := stringsKept_passFrame.of_createFailureLinks hrun
  refine ⟨A', hrun, fun w s ms hs hc => ⟨(h.keeps.reach _ w).trans hs, _,
    LinkInv.final_chain hO h hl ⟨w, hs⟩, ?_⟩⟩
  obtain rfl : ms = ownRecords A₀ s := hc.unique (own_chain hO hs).1
  have hpre : ownRecords A₀ s <+:
      pathRecords A₀ A' automaton.root s ++ ownRecords A₀ automaton.root := by
    by_cases hsr : s = automaton.root
    · simp only [hsr, pathRecords_root, List.nil_append, List.prefix_refl]
    · simp only [pathRecords, failPath, if_neg hsr, List.append_assoc]
      exact List.prefix_append _ _
  obtain ⟨rest, hrest⟩ := hpre
  refine ⟨entries A' rest, ?_⟩
  rw [← hrest, entries, entries, entries, List.map_append]
  exact congrArg (· ++ _) (List.map_congr_left fun m _ => by rw [hk m, h.keeps.backtrack m])

theorem create_failure_links_keeps_reports_ab :
    Built literalTables abAutomaton ⟨0⟩ ∧ AllocationsSucceed abAutomaton ∧
      ∃ A', yrAcCreateFailureLinks 0 abAutomaton ⟨0⟩ = some A' ∧
        ∀ w s ms, reach abAutomaton 0 w = some s → Chain abAutomaton (abAutomaton.states s).matchHead ms →
          reach A' 0 w = some s ∧ ∃ ms', Chain A' (A'.states s).matchHead ms' ∧
            entries abAutomaton ms <+: entries A' ms' :=
  ⟨abAutomaton_built, abAutomaton_allocationsSucceed,
    create_failure_links_keeps_reports abAutomaton_built abAutomaton_allocationsSucceed 0⟩

end YaraAhoCorasick.FailureReports
