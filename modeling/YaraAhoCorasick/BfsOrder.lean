import Mathlib.Data.List.Sort
import YaraAhoCorasick.FailureRun
import YaraAhoCorasick.LinkedQueue

namespace YaraAhoCorasick.BfsOrder

open YaraAhoCorasick.Tokens YaraAhoCorasick.Automaton YaraAhoCorasick.FailureLinks
  YaraAhoCorasick.Trie YaraAhoCorasick.OwnRecords YaraAhoCorasick.Levels
  YaraAhoCorasick.FailureInvariant YaraAhoCorasick.FailureSteps YaraAhoCorasick.FailureRun

variable {A : Arena} {root : Nat}

theorem levels_flatMap_children (k d : Nat) :
    (levels A root k d).flatMap (children A) = levels A root (k + 1) d := by
  induction d generalizing k with
  | zero => rfl
  | succ d ih => rw [levels, List.flatMap_append, ih, levels]; rfl

theorem levels_succ_right (k d : Nat) :
    levels A root k (d + 1) = levels A root k d ++ level A root (k + d) := by
  induction d generalizing k with
  | zero => simp [levels]
  | succ d ih => rw [levels, ih, levels, List.append_assoc, Nat.add_right_comm k 1 d]; rfl

theorem levels_eq_level_append {k d : Nat} (hnil : level A root (k + d) = []) :
    levels A root k d = level A root k ++ (levels A root k d).flatMap (children A) := by
  rw [levels_flatMap_children]
  cases d with
  | zero => simpa [levels] using hnil.symm
  | succ d =>
    rw [levels_succ_right (k + 1), Nat.add_right_comm, ← Nat.add_assoc] at *
    rw [hnil, List.append_nil]
    rfl

section Trie

variable (hI : TrieInv A root)
include hI

theorem mem_levels_iff_inTrie (v : Nat) :
    v ∈ levels A root 1 maxToken ↔ InTrie A root v ∧ v ≠ root := by
  rw [mem_levels hI]
  constructor
  · rintro ⟨w, hw, h1, -⟩
    refine ⟨⟨w, hw⟩, fun hv => ?_⟩
    rw [hv] at hw
    have := (hI.depth [] root rfl).symm.trans (hI.depth w root hw)
    rw [List.length_nil] at this
    omega
  · rintro ⟨⟨w, hw⟩, hvr⟩
    have hpos := depth_pos hI ⟨w, hw⟩ hvr
    have hle := depth_le hI ⟨w, hw⟩
    rw [hI.depth w v hw] at hpos hle
    exact ⟨w, hw, hpos, by omega⟩

theorem levels_depth_ge {k d v : Nat} (hv : v ∈ levels A root k d) : k ≤ (A.states v).depth := by
  obtain ⟨w, hw, hk, -⟩ := (mem_levels hI k d v).mp hv
  rw [hI.depth w v hw]
  exact hk

theorem levels_depth_sorted (k d : Nat) :
    ((levels A root k d).map fun s => (A.states s).depth).Sorted (· ≤ ·) := by
  induction d generalizing k with
  | zero => exact List.sorted_nil
  | succ d ih =>
    have hk : ∀ s ∈ level A root k, (A.states s).depth = k := fun s hs =>
      (mem_level_iff hI (inTrie_of_mem_level hI hs) k).mp hs
    rw [levels, List.map_append, List.Sorted, List.pairwise_append]
    refine ⟨List.pairwise_of_forall_mem_list ?_, ih (k + 1), ?_⟩ <;>
      simp only [List.mem_map] <;> rintro _ ⟨s, hs, rfl⟩ _ ⟨s', hs', rfl⟩
    · rw [hk s hs, hk s' hs']
    · have := levels_depth_ge hI hs'
      rw [hk s hs]
      omega

end Trie

theorem level_one (A : Arena) (root : Nat) : level A root 1 = children A root := by
  simp [level]

/-- The arena and queue the BFS loop starts from: the root linked to itself, and its children
pushed and linked to it. -/
def rootChildrenPushed (A : Arena) (root : Nat) : Arena × Queue :=
  (children (setFailure A root root) root).foldl (pushRootChild root) (setFailure A root root, [])

/-- `LoopRun i root A queue T A'`: the BFS loop from `A` and `queue` pops the states of `T`, each
from the arena beside it, and ends with `A'`. -/
inductive LoopRun (i : UInt8) (root : Nat) : Arena → Queue → List (Nat × Arena) → Arena → Prop
  | done (A : Arena) : LoopRun i root A [] [] A
  | pop {A B A' : Arena} {current : Nat} {queue queue' : Queue} {T : List (Nat × Arena)} :
      popState i root A current queue = some (B, queue') → LoopRun i root B queue' T A' →
      LoopRun i root A (current :: queue) ((current, A) :: T) A'

theorem bfsLoop_loopRun (i : UInt8) (root : Nat) :
    ∀ (fuel : Nat) (A : Arena) (queue : Queue) {A' : Arena}, bfsLoop i root fuel A queue = some A' →
      LoopRun i root A queue (bfsTrace i root fuel A queue) A'
  | 0, _, _, _, h => by simp [bfsLoop] at h
  | _ + 1, A, [], _, h => by
    cases h
    exact .done A
  | fuel + 1, A, current :: queue, A', h => by
    obtain ⟨⟨B, q⟩, hp, h⟩ := Option.bind_eq_some.mp h
    rw [bfsTrace, hp]
    exact .pop hp (bfsLoop_loopRun i root fuel B q h)

theorem createFailureLinks_loopRun {i : UInt8} {automaton : AcAutomaton} {A' : Arena}
    (h : yrAcCreateFailureLinks i A automaton = some A') :
    LoopRun i automaton.root (rootChildrenPushed A automaton.root).1
      (rootChildrenPushed A automaton.root).2 (createFailureLinksTrace i A automaton) A' :=
  bfsLoop_loopRun i automaton.root _ _ _ h

/-- The loop of `yr_ac_create_failure_links` pops every non-root state of the trie once, in the
order pushed and by nondecreasing depth, with every shallower state linked at each pop. -/
theorem create_failure_links_bfs_order {tables : RegexTables} {automaton : AcAutomaton}
    (hB : Built tables A automaton) (hok : AllocationsSucceed A) (i : UInt8) :
    (∀ s, children A s =
      if (A.states s).depth ≤ maxTableBasedStatesDepth then
        (List.range 256).filterMap fun j => (A.states s).transitions.tableOf (UInt8.ofNat j)
      else (A.states s).transitions.listOf.map (·.state)) ∧
    (∀ s, InTrie A automaton.root s → (children A s).Nodup) ∧
    (∀ (queue : LinkedQueue.YrQueue) ns, LinkedQueue.Holds queue ns →
      (∀ (B : Arena) pushedNode value, pushedNode ∉ ns →
        (LinkedQueue.yrAcQueuePush B pushedNode queue value).1 =
            (yrAcQueuePush B (LinkedQueue.values queue ns) value).1 ∧
          (LinkedQueue.yrAcQueuePush B pushedNode queue value).2.2 =
            (yrAcQueuePush B (LinkedQueue.values queue ns) value).2.2 ∧
          ∃ ns', LinkedQueue.Holds (LinkedQueue.yrAcQueuePush B pushedNode queue value).2.1 ns' ∧
            LinkedQueue.values (LinkedQueue.yrAcQueuePush B pushedNode queue value).2.1 ns' =
              (yrAcQueuePush B (LinkedQueue.values queue ns) value).2.1) ∧
      ((LinkedQueue.yrAcQueuePop queue).1 = (LinkedQueue.values queue ns).head? ∧
        LinkedQueue.Holds (LinkedQueue.yrAcQueuePop queue).2 ns.tail ∧
        LinkedQueue.values (LinkedQueue.yrAcQueuePop queue).2 ns.tail =
          (LinkedQueue.values queue ns).tail) ∧
      (LinkedQueue.yrAcQueueIsEmpty queue = true ↔ LinkedQueue.values queue ns = [])) ∧
    (∃ A', yrAcCreateFailureLinks i A automaton = some A' ∧
      LoopRun i automaton.root (rootChildrenPushed A automaton.root).1
        (rootChildrenPushed A automaton.root).2 (createFailureLinksTrace i A automaton) A') ∧
    (createFailureLinksTrace i A automaton).map Prod.fst =
      children A automaton.root ++
        ((createFailureLinksTrace i A automaton).map Prod.fst).flatMap (children A) ∧
    ((createFailureLinksTrace i A automaton).map Prod.fst).Nodup ∧
    (∀ v, v ∈ (createFailureLinksTrace i A automaton).map Prod.fst ↔
      InTrie A automaton.root v ∧ v ≠ automaton.root) ∧
    ((createFailureLinksTrace i A automaton).map fun p => (A.states p.1).depth).Sorted (· ≤ ·) ∧
    ∀ p ∈ createFailureLinksTrace i A automaton, ∀ t ∈ children A p.1, ∀ v,
      InTrie A automaton.root v → (A.states v).depth < (A.states t).depth →
        (p.2.states v).failure ≠ none := by
  have hI := hB.trieInv
  obtain ⟨A', hrun, -, -, -, hT, hTl⟩ :=
    createFailureLinks_run (Built.ownLists hB) hI (Built.failuresUnset hB) hok i
  have hmem := mem_levels_iff_inTrie hI
  refine ⟨children_eq A, fun s ⟨w, hw⟩ => children_nodup hI hw, fun queue ns h =>
    ⟨fun B _ value hf => LinkedQueue.yrAcQueuePush_refines h B hf value,
      LinkedQueue.yrAcQueuePop_refines h, LinkedQueue.yrAcQueueIsEmpty_iff h⟩,
    ⟨A', hrun, createFailureLinks_loopRun hrun⟩, ?_, ?_, ?_, ?_, ?_⟩
  · rw [hT, ← level_one]
    exact levels_eq_level_append (level_eq_nil hI (by omega))
  · exact hT ▸ levels_nodup hI 1 maxToken
  · exact fun v => hT ▸ hmem v
  · have := levels_depth_sorted hI 1 maxToken
    rwa [← hT, List.map_map] at this
  · intro p hp t ht v hv hvd
    have hp₁ := (hmem p.1).mp (hT ▸ List.mem_map_of_mem Prod.fst hp)
    have := (child_inTrie hI hp₁.1 ht).2.2
    exact hTl p hp v hv (by omega)

theorem create_failure_links_bfs_order_ab :
    Built literalTables abAutomaton ⟨0⟩ ∧ AllocationsSucceed abAutomaton ∧
    (∀ s, children abAutomaton s =
      if (abAutomaton.states s).depth ≤ maxTableBasedStatesDepth then
        (List.range 256).filterMap fun j => (abAutomaton.states s).transitions.tableOf (UInt8.ofNat j)
      else (abAutomaton.states s).transitions.listOf.map (·.state)) ∧
    (∀ s, InTrie abAutomaton 0 s → (children abAutomaton s).Nodup) ∧
    (∀ (queue : LinkedQueue.YrQueue) ns, LinkedQueue.Holds queue ns →
      (∀ (B : Arena) pushedNode value, pushedNode ∉ ns →
        (LinkedQueue.yrAcQueuePush B pushedNode queue value).1 =
            (yrAcQueuePush B (LinkedQueue.values queue ns) value).1 ∧
          (LinkedQueue.yrAcQueuePush B pushedNode queue value).2.2 =
            (yrAcQueuePush B (LinkedQueue.values queue ns) value).2.2 ∧
          ∃ ns', LinkedQueue.Holds (LinkedQueue.yrAcQueuePush B pushedNode queue value).2.1 ns' ∧
            LinkedQueue.values (LinkedQueue.yrAcQueuePush B pushedNode queue value).2.1 ns' =
              (yrAcQueuePush B (LinkedQueue.values queue ns) value).2.1) ∧
      ((LinkedQueue.yrAcQueuePop queue).1 = (LinkedQueue.values queue ns).head? ∧
        LinkedQueue.Holds (LinkedQueue.yrAcQueuePop queue).2 ns.tail ∧
        LinkedQueue.values (LinkedQueue.yrAcQueuePop queue).2 ns.tail =
          (LinkedQueue.values queue ns).tail) ∧
      (LinkedQueue.yrAcQueueIsEmpty queue = true ↔ LinkedQueue.values queue ns = [])) ∧
    (∃ A', yrAcCreateFailureLinks 0 abAutomaton ⟨0⟩ = some A' ∧
      LoopRun 0 0 (rootChildrenPushed abAutomaton 0).1 (rootChildrenPushed abAutomaton 0).2
        (createFailureLinksTrace 0 abAutomaton ⟨0⟩) A') ∧
    (createFailureLinksTrace 0 abAutomaton ⟨0⟩).map Prod.fst =
      children abAutomaton 0 ++
        ((createFailureLinksTrace 0 abAutomaton ⟨0⟩).map Prod.fst).flatMap (children abAutomaton) ∧
    ((createFailureLinksTrace 0 abAutomaton ⟨0⟩).map Prod.fst).Nodup ∧
    (∀ v, v ∈ (createFailureLinksTrace 0 abAutomaton ⟨0⟩).map Prod.fst ↔
      InTrie abAutomaton 0 v ∧ v ≠ 0) ∧
    ((createFailureLinksTrace 0 abAutomaton ⟨0⟩).map fun p => (abAutomaton.states p.1).depth).Sorted
      (· ≤ ·) ∧
    ∀ p ∈ createFailureLinksTrace 0 abAutomaton ⟨0⟩, ∀ t ∈ children abAutomaton p.1, ∀ v,
      InTrie abAutomaton 0 v → (abAutomaton.states v).depth < (abAutomaton.states t).depth →
        (p.2.states v).failure ≠ none :=
  ⟨abAutomaton_built, abAutomaton_allocationsSucceed,
    create_failure_links_bfs_order abAutomaton_built abAutomaton_allocationsSucceed 0⟩

end YaraAhoCorasick.BfsOrder
