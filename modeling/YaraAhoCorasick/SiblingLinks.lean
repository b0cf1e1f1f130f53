import YaraAhoCorasick.FailureRun

namespace YaraAhoCorasick.SiblingLinks

open YaraAhoCorasick.Tokens YaraAhoCorasick.Automaton YaraAhoCorasick.AddString
  YaraAhoCorasick.FailureLinks YaraAhoCorasick.Trie YaraAhoCorasick.MatchList
  YaraAhoCorasick.OwnRecords YaraAhoCorasick.FailureInvariant YaraAhoCorasick.FailureSteps
  YaraAhoCorasick.FailureRun

variable {A₀ A : Arena} {root : Nat}

/-- The state of the longest proper suffix of `w` that labels a state, or the root: the failure
link Aho-Corasick is to give the state of `w`. -/
def suffixLink (A : Arena) (root : Nat) (w : List UInt8) : Option Nat :=
  (List.range w.length).findSome? fun j => reach A root (w.drop (j + 1))

/-- The records `yr_ac_add_string` attached to the states whose label is a suffix of `w`, the
longest first: what the list of the state of `w` is to hold. -/
def suffixRecords (A₀ : Arena) (root : Nat) (w : List UInt8) : List Nat :=
  (List.range (w.length + 1)).flatMap fun j =>
    match reach A₀ root (w.drop j) with
    | some s => ownRecords A₀ s
    | none => []

theorem suffixLink_keeps (hK : Keeps A₀ A) (w : List UInt8) :
    suffixLink A root w = suffixLink A₀ root w := by
  simp only [suffixLink, hK.reach]

theorem create_failure_links_siblings_agree {tables : RegexTables} {automaton : AcAutomaton}
    (hB : Built tables A₀ automaton) (hok : AllocationsSucceed A₀) (i : UInt8) :
    ∃ A', yrAcCreateFailureLinks i A₀ automaton = some A' ∧ Keeps A₀ A' ∧
      ∀ x t₁ t₂, InTrie A₀ automaton.root x → t₁ ∈ children A₀ x → t₂ ∈ children A₀ x →
        (A'.states t₁).failure = (A'.states t₂).failure := by
  have hI := hB.trieInv
  obtain ⟨A', hrun, h, hl, hS, -⟩ :=
    createFailureLinks_run (Built.ownLists hB) hI (Built.failuresUnset hB) hok i
  have hlinked : ∀ x t, InTrie A₀ automaton.root x → t ∈ children A₀ x →
      (A'.states t).failure ≠ none := fun x t hx ht =>
    let ⟨ht', htr, _⟩ := child_inTrie hI hx ht
    hl t ht' htr
  exact ⟨A', hrun, h.keeps, fun x t₁ t₂ hx h₁ h₂ =>
    hS x t₁ t₂ hx h₁ h₂ (hlinked x t₁ hx h₁) (hlinked x t₂ hx h₂)⟩

def textString (bytes : List UInt8) : YrString := ⟨false, false, true, false, false, bytes, [], []⟩

/-- The automaton of the strings "ab", "ac" and "b", every allocation succeeding: the root 0,
then a = 1, ab = 2, ac = 3 and b = 4, with the records 0 of "ab", 1 of "ac" and 2 of "b". -/
def siblingArena : Arena :=
  (yrAcAddString literalTables (yrAcAddString literalTables (yrAcAddString literalTables
    (yrAcCreateAutomaton (emptyArena fun _ => true)).1 ⟨0⟩ (textString [97, 98])).arena ⟨0⟩
    (textString [97, 99])).arena ⟨0⟩ (textString [98])).arena

theorem siblingArena_built : Built literalTables siblingArena ⟨0⟩ :=
  .add _ (.add _ (.add _ (.create (show yrAcCreateAutomaton (emptyArena fun _ => true) =
    ((yrAcCreateAutomaton (emptyArena fun _ => true)).1, some ⟨0⟩) from rfl))))

theorem siblingArena_allocationsSucceed : AllocationsSucceed siblingArena := fun _ _ => rfl

/-- Whatever `i` holds, "ab" or "ac" is not linked to the state of its longest proper suffix,
"b" and the root: the two children of "a" get the same link. -/
theorem create_failure_links_wrong_suffix_link (i : UInt8) :
    ∃ A', yrAcCreateFailureLinks i siblingArena ⟨0⟩ = some A' ∧
      ∃ w s, reach A' 0 w = some s ∧ (A'.states s).failure ≠ suffixLink A' 0 w := by
  obtain ⟨A', hrun, hK, hS⟩ := create_failure_links_siblings_agree siblingArena_built
    siblingArena_allocationsSucceed i
  have heq := hS 1 2 3 ⟨[97], rfl⟩ (by decide) (by decide)
  refine ⟨A', hrun, ?_⟩
  simp only [suffixLink_keeps hK, hK.reach]
  by_cases h₂ : (A'.states 2).failure = some 4
  · exact ⟨[97, 99], 3, rfl, by rw [← heq, h₂]; decide⟩
  · exact ⟨[97, 98], 2, rfl, h₂⟩

/-- Whatever `i` holds, the list of "ab" or of "ac" is not the records of its label's suffixes:
both end with the list of the one state the two are linked to. -/
theorem create_failure_links_wrong_match_list (i : UInt8) :
    ∃ A', yrAcCreateFailureLinks i siblingArena ⟨0⟩ = some A' ∧
      ∃ w s L, reach A' 0 w = some s ∧ Chain A' (A'.states s).matchHead L ∧
        ¬ L.Perm (suffixRecords siblingArena 0 w) := by
  have hO := Built.ownLists siblingArena_built
  obtain ⟨A', hrun, h, hl, hS, -⟩ := createFailureLinks_run hO siblingArena_built.trieInv
    (Built.failuresUnset siblingArena_built) siblingArena_allocationsSucceed i
  have h₂ : InTrie siblingArena 0 2 := ⟨[97, 98], rfl⟩
  have h₃ : InTrie siblingArena 0 3 := ⟨[97, 99], rfl⟩
  obtain ⟨f, hf₂⟩ := Option.ne_none_iff_exists'.mp (hl 2 h₂ (by decide))
  have hf₃ : (A'.states 3).failure = some f := by
    rw [← hf₂]
    exact (hS 1 2 3 ⟨[97], rfl⟩ (by decide) (by decide) (by rw [hf₂]; simp)
      (hl 3 h₃ (by decide))).symm
  have hc₂ := LinkInv.final_chain hO h hl h₂
  have hc₃ := LinkInv.final_chain hO h hl h₃
  rw [pathRecords_of_failure h.failure h₂ (by decide) hf₂] at hc₂
  rw [pathRecords_of_failure h.failure h₃ (by decide) hf₃] at hc₃
  refine ⟨A', hrun, ?_⟩
  by_contra hall
  push_neg at hall
  have hp₂ := (hall [97, 98] 2 _ (by rw [h.keeps.reach]; rfl) hc₂).length_eq
  have hp₃ := (hall [97, 99] 3 _ (by rw [h.keeps.reach]; rfl) hc₃).length_eq
  have hown : (ownRecords siblingArena 2).length = 1 ∧ (ownRecords siblingArena 3).length = 1 ∧
      (ownRecords siblingArena 0).length = 0 ∧
      (suffixRecords siblingArena 0 [97, 98]).length = 2 ∧
      (suffixRecords siblingArena 0 [97, 99]).length = 1 := ⟨rfl, rfl, rfl, rfl, rfl⟩
  simp only [List.length_append] at hp₂ hp₃
  omega

end YaraAhoCorasick.SiblingLinks
