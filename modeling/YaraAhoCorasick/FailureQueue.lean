import YaraAhoCorasick.LinkedQueue
import YaraAhoCorasick.Trie

namespace YaraAhoCorasick.FailureQueue

open YaraAhoCorasick.Automaton YaraAhoCorasick.LinkedQueue
open YaraAhoCorasick.Trie (abAutomaton)
open YaraAhoCorasick.FailureLinks (appendRootMatches appendFailureMatches failureSearch setFailure
  setNext setMatchHead matchTail Queue)

/-- The failure link of `transition`, a child of `current`, and the chain appended to it: the
body of the loop over the children after the push. -/
def linkFailure (i : UInt8) (root current : Nat) (A : Arena) (transition : Nat) :
    Option Arena := do
  let failureState ← (A.states current).failure
  match ← failureSearch A root i ((A.states failureState).depth + 1) failureState with
  | some temp => appendFailureMatches (setFailure A transition temp) transition temp
  | none => some (setFailure A transition root)

/-- `_yr_ac_queue_push (&queue, state)`, the node at the address `nodeAt n` that `yr_malloc`
returns at the allocation call `n`. -/
def pushState (nodeAt : Nat → Nat) (A : Arena) (queue : YrQueue) (state : Nat) :
    Arena × YrQueue × YrError :=
  yrAcQueuePush A (nodeAt A.calls) queue state

def linkChild (nodeAt : Nat → Nat) (i : UInt8) (root current : Nat) (A : Arena)
    (queue : YrQueue) (transition : Nat) : Option (Arena × YrQueue) :=
  let pushed := pushState nodeAt A queue transition
  (linkFailure i root current pushed.1 transition).map (·, pushed.2.1)

def popState (nodeAt : Nat → Nat) (i : UInt8) (root : Nat) (A : Arena) (current : Nat)
    (queue : YrQueue) : Option (Arena × YrQueue) := do
  let A ← appendRootMatches A root current
  (children A current).foldlM (fun p t => linkChild nodeAt i root current p.1 p.2 t) (A, queue)

/-- `while (!_yr_ac_queue_is_empty (&queue))` around `_yr_ac_queue_pop`, with `fuel`
iterations. -/
def bfsLoop (nodeAt : Nat → Nat) (i : UInt8) (root : Nat) :
    Nat → Arena → YrQueue → Option Arena
  | 0, _, _ => none
  | fuel + 1, A, queue =>
    if yrAcQueueIsEmpty queue then some A
    else
      match yrAcQueuePop queue with
      | (some current, queue) => do
        let (A, queue) ← popState nodeAt i root A current queue
        bfsLoop nodeAt i root fuel A queue
      | (none, _) => none

def pushRootChild (nodeAt : Nat → Nat) (root : Nat) (p : Arena × YrQueue) (s : Nat) :
    Arena × YrQueue :=
  let pushed := pushState nodeAt p.1 p.2 s
  (setFailure pushed.1 s root, pushed.2.1)

/-- `yr_ac_create_failure_links` with its `QUEUE`, `head` and `tail` set to `NULL` over the
node memory `memory`. -/
def yrAcCreateFailureLinks (nodeAt : Nat → Nat) (memory : Nat → QueueNode) (i : UInt8)
    (A : Arena) (automaton : AcAutomaton) : Option Arena :=
  let root := automaton.root
  let A := setFailure A root root
  let p := (children A root).foldl (pushRootChild nodeAt root) (A, ⟨none, none, memory⟩)
  bfsLoop nodeAt i root (p.1.stateCount + 1) p.1 p.2

/-- The pushes of a loop over `ts` whose body, `step`, starts with the push, each with the
address `yr_malloc` returns for its node, up to the body that fails; then the calls of `rest`. -/
def pushCalls (nodeAt : Nat → Nat) (step : Arena × Queue → Nat → Option (Arena × Queue))
    (rest : Arena × Queue → List QueueCall) : List Nat → Arena × Queue → List QueueCall
  | [], p => rest p
  | t :: ts, p => .push (nodeAt p.1.calls) t ::
    match step p t with
    | some p => pushCalls nodeAt step rest ts p
    | none => []

def popCalls (nodeAt : Nat → Nat) (i : UInt8) (root : Nat) (rest : Arena × Queue → List QueueCall)
    (A : Arena) (current : Nat) (queue : Queue) : List QueueCall :=
  match appendRootMatches A root current with
  | some B => pushCalls nodeAt (fun p t => FailureLinks.linkChild i root current p.1 p.2 t) rest
      (children B current) (B, queue)
  | none => []

def loopCalls (nodeAt : Nat → Nat) (i : UInt8) (root : Nat) :
    Nat → Arena → Queue → List QueueCall
  | 0, _, _ => []
  | _ + 1, _, [] => []
  | fuel + 1, A, current :: queue =>
    .pop :: popCalls nodeAt i root (fun p => loopCalls nodeAt i root fuel p.1 p.2) A current queue

/-- The calls of `yr_ac_create_failure_links` on `QUEUE`: a push per child of the root, then
those of the loop. -/
def createFailureLinksCalls (nodeAt : Nat → Nat) (i : UInt8) (A : Arena)
    (automaton : AcAutomaton) : List QueueCall :=
  let root := automaton.root
  let A := setFailure A root root
  pushCalls nodeAt (fun p s => some (FailureLinks.pushRootChild root p s))
    (fun p => loopCalls nodeAt i root (p.1.stateCount + 1) p.1 p.2) (children A root) (A, [])

/-- `queue` is made of nodes holding the states `q`, none of whose addresses `yr_malloc` hands
out in the calls still to come. -/
def QueueRel (A : Arena) (queue : YrQueue) (q : Queue) (calls : List QueueCall) : Prop :=
  ∃ ns, Holds queue ns ∧ values queue ns = q ∧ freshNodes A ns calls = true

def Sim (rest : Arena × Queue → List QueueCall) (p : Arena × YrQueue) (p' : Arena × Queue) :
    Prop :=
  p.1 = p'.1 ∧ QueueRel p.1 p.2 p'.2 (rest p')

variable {nodeAt : Nat → Nat} {A B : Arena} {queue : YrQueue} {q : Queue}
  {calls : List QueueCall}

theorem freshNodes_congr (h : B.ok = A.ok ∧ B.calls = A.calls) (ns : List Nat)
    (calls : List QueueCall) : freshNodes B ns calls = freshNodes A ns calls := by
  induction calls generalizing A B ns with
  | nil => rfl
  | cons call calls ih =>
    cases call with
    | push pushedNode value =>
      simp only [freshNodes, Arena.allocate, h.1, h.2]
      exact congrArg _ (ih (A := { A with calls := A.calls + 1 })
        (B := { B with ok := A.ok, calls := A.calls + 1 }) ⟨rfl, rfl⟩ _)
    | pop => exact ih h _

theorem QueueRel.frame (h : QueueRel A queue q calls) (hB : B.ok = A.ok ∧ B.calls = A.calls) :
    QueueRel B queue q calls :=
  let ⟨ns, hh, hv, hf⟩ := h
  ⟨ns, hh, hv, (freshNodes_congr hB ns calls).trans hf⟩

theorem QueueRel.isEmpty (h : QueueRel A queue q calls) :
    yrAcQueueIsEmpty queue = true ↔ q = [] :=
  let ⟨_, hh, hv, _⟩ := h
  hv ▸ yrAcQueueIsEmpty_iff hh

theorem QueueRel.pop {current : Nat} (h : QueueRel A queue (current :: q) (.pop :: calls)) :
    yrAcQueuePop queue = (some current, (yrAcQueuePop queue).2) ∧
      QueueRel A (yrAcQueuePop queue).2 q calls := by
  obtain ⟨ns, hh, hv, hf⟩ := h
  obtain ⟨hpop, hh', hv'⟩ := yrAcQueuePop_refines hh
  rw [hv] at hpop hv'
  exact ⟨Prod.ext hpop rfl, ns.tail, hh', hv', hf⟩

theorem QueueRel.push {state : Nat}
    (h : QueueRel A queue q (.push (nodeAt A.calls) state :: calls)) :
    (pushState nodeAt A queue state).1 = (FailureLinks.yrAcQueuePush A q state).1 ∧
      QueueRel (pushState nodeAt A queue state).1 (pushState nodeAt A queue state).2.1
        (FailureLinks.yrAcQueuePush A q state).2.1 calls := by
  obtain ⟨ns, hh, rfl, hf⟩ := h
  simp only [freshNodes, Bool.and_eq_true, decide_eq_true_eq] at hf
  obtain ⟨ha, -, hh', hv'⟩ := yrAcQueuePush_spec hh A hf.1 state
  refine ⟨ha, _, hh', hv', ?_⟩
  rw [pushState, yrAcQueuePush_arena]
  exact hf.2

/-- A relation between arenas that is reflexive, transitive, and holds across each write the
failure-link updates make: a failure link, a match head, a `next` field. -/
structure WriteFrame (R : Arena → Arena → Prop) : Prop where
  refl : ∀ A, R A A
  trans : ∀ {A B C}, R A B → R B C → R A C
  failure : ∀ A s t, R A (setFailure A s t)
  head : ∀ A s target, R A (setMatchHead A s target)
  next : ∀ A m target, R A (setNext A m target)

variable {R : Arena → Arena → Prop}

theorem WriteFrame.of_appendRootMatches (hR : WriteFrame R) {root current : Nat}
    (h : appendRootMatches A root current = some B) : R A B := by
  unfold appendRootMatches at h
  split at h
  · obtain ⟨tail, -, h⟩ := Option.bind_eq_some.mp h
    split_ifs at h <;> cases h
    · exact hR.next A tail _
    · exact hR.refl A
  · cases h
    exact hR.head A current _

theorem WriteFrame.of_appendFailureMatches (hR : WriteFrame R) {transition temp : Nat}
    (h : appendFailureMatches A transition temp = some B) : R A B := by
  unfold appendFailureMatches at h
  split at h
  · cases h
    exact hR.head A transition _
  · obtain ⟨tail, -, h⟩ := Option.bind_eq_some.mp h
    cases h
    exact hR.next A tail _

theorem WriteFrame.of_linkFailure (hR : WriteFrame R) {i : UInt8} {root current transition : Nat}
    (h : linkFailure i root current A transition = some B) : R A B := by
  unfold linkFailure at h
  obtain ⟨failureState, -, h⟩ := Option.bind_eq_some.mp h
  obtain ⟨found, -, h⟩ := Option.bind_eq_some.mp h
  cases found with
  | none => cases h; exact hR.failure A transition root
  | some temp =>
    exact hR.trans (hR.failure A transition temp)
      (hR.of_appendFailureMatches (A := setFailure A transition temp) h)

theorem allocationsKept_writeFrame : WriteFrame fun A B => B.ok = A.ok ∧ B.calls = A.calls :=
  ⟨fun _ => ⟨rfl, rfl⟩, fun h₁ h₂ => ⟨h₂.1.trans h₁.1, h₂.2.trans h₁.2⟩,
    fun _ _ _ => ⟨rfl, rfl⟩, fun _ _ _ => ⟨rfl, rfl⟩, fun _ _ _ => ⟨rfl, rfl⟩⟩

theorem linkChild_eq (i : UInt8) (root current : Nat) (A : Arena) (q : Queue)
    (transition : Nat) :
    FailureLinks.linkChild i root current A q transition =
      (linkFailure i root current (FailureLinks.yrAcQueuePush A q transition).1 transition).map
        (·, (FailureLinks.yrAcQueuePush A q transition).2.1) := by
  unfold FailureLinks.linkChild linkFailure
  rcases FailureLinks.yrAcQueuePush A q transition with ⟨A', q', e⟩
  dsimp only
  cases (A'.states current).failure with
  | none => rfl
  | some failureState =>
    simp only [Option.bind_eq_bind, Option.some_bind]
    cases failureSearch A' root i ((A'.states failureState).depth + 1) failureState with
    | none => rfl
    | some found =>
      cases found with
      | none => rfl
      | some temp =>
        simp only [Option.some_bind]
        cases appendFailureMatches (setFailure A' transition temp) transition temp <;> rfl

section Rel

variable {α β γ δ : Type} {R : α → β → Prop} {x : Option α} {y : Option β}

theorem rel_bind {S : γ → δ → Prop} (h : Option.Rel R x y) {f : α → Option γ}
    {g : β → Option δ} (hfg : ∀ a b, R a b → Option.Rel S (f a) (g b)) :
    Option.Rel S (x >>= f) (y >>= g) := by
  cases h with
  | none => exact .none
  | some hab => exact hfg _ _ hab

theorem bind_eq_of_rel (h : Option.Rel R x y) {f : α → Option γ} {g : β → Option γ}
    (hfg : ∀ a b, R a b → f a = g b) : x >>= f = y >>= g := by
  cases h with
  | none => rfl
  | some hab => exact hfg _ _ hab

end Rel

theorem linkChild_refines {i : UInt8} {root current transition : Nat} {ts : List Nat}
    {rest : Arena × Queue → List QueueCall} {p : Arena × YrQueue} {p' : Arena × Queue}
    (h : Sim (pushCalls nodeAt (fun p t => FailureLinks.linkChild i root current p.1 p.2 t) rest
      (transition :: ts)) p p') :
    Option.Rel
      (Sim (pushCalls nodeAt (fun p t => FailureLinks.linkChild i root current p.1 p.2 t) rest ts))
      (linkChild nodeAt i root current p.1 p.2 transition)
      (FailureLinks.linkChild i root current p'.1 p'.2 transition) := by
  obtain ⟨A, queue⟩ := p
  obtain ⟨_, q⟩ := p'
  obtain ⟨⟨⟩, h⟩ := h
  obtain ⟨hA, hq⟩ := QueueRel.push h
  simp only [linkChild, linkChild_eq] at hq ⊢
  rw [← hA] at hq ⊢
  cases hl : linkFailure i root current (pushState nodeAt A queue transition).1 transition with
  | none => exact .none
  | some B =>
    rw [hl] at hq
    exact .some ⟨rfl, hq.frame (allocationsKept_writeFrame.of_linkFailure hl)⟩

theorem foldlM_linkChild (i : UInt8) (root current : Nat) (rest : Arena × Queue → List QueueCall) :
    ∀ (ts : List Nat) {p : Arena × YrQueue} {p' : Arena × Queue},
      Sim (pushCalls nodeAt (fun p t => FailureLinks.linkChild i root current p.1 p.2 t) rest ts)
        p p' →
      Option.Rel (Sim rest)
        (ts.foldlM (fun p t => linkChild nodeAt i root current p.1 p.2 t) p)
        (ts.foldlM (fun p t => FailureLinks.linkChild i root current p.1 p.2 t) p')
  | [], _, _, h => .some h
  | t :: ts, _, _, h => by
    simp only [List.foldlM_cons]
    exact rel_bind (linkChild_refines h) fun _ _ h' => foldlM_linkChild i root current rest ts h'

theorem popState_refines {i : UInt8} {root current : Nat} {rest : Arena × Queue → List QueueCall}
    (h : QueueRel A queue q (popCalls nodeAt i root rest A current q)) :
    Option.Rel (Sim rest) (popState nodeAt i root A current queue)
      (FailureLinks.popState i root A current q) := by
  unfold popState FailureLinks.popState
  cases hr : appendRootMatches A root current with
  | none => exact .none
  | some B =>
    rw [popCalls, hr] at h
    exact foldlM_linkChild i root current rest _
      ⟨rfl, h.frame (allocationsKept_writeFrame.of_appendRootMatches hr)⟩

theorem bfsLoop_refines (i : UInt8) (root : Nat) :
    ∀ (fuel : Nat) (A : Arena) (queue : YrQueue) (q : Queue),
      QueueRel A queue q (loopCalls nodeAt i root fuel A q) →
      bfsLoop nodeAt i root fuel A queue = FailureLinks.bfsLoop i root fuel A q
  | 0, _, _, _, _ => rfl
  | fuel + 1, A, queue, [], h => by
    rw [bfsLoop, if_pos (h.isEmpty.mpr rfl), FailureLinks.bfsLoop]
  | fuel + 1, A, queue, current :: q, h => by
    obtain ⟨hpop, h'⟩ := QueueRel.pop h
    rw [bfsLoop, if_neg fun he => List.cons_ne_nil _ _ (h.isEmpty.mp he), hpop,
      FailureLinks.bfsLoop]
    refine bind_eq_of_rel (popState_refines h') ?_
    rintro ⟨B, queue'⟩ ⟨B', q'⟩ ⟨hB, hq⟩
    subst hB
    exact bfsLoop_refines i root fuel B queue' q' hq

theorem pushRootChild_eq (root : Nat) (p : Arena × Queue) (s : Nat) :
    FailureLinks.pushRootChild root p s =
      (setFailure (FailureLinks.yrAcQueuePush p.1 p.2 s).1 s root,
        (FailureLinks.yrAcQueuePush p.1 p.2 s).2.1) := by
  unfold FailureLinks.pushRootChild
  rcases FailureLinks.yrAcQueuePush p.1 p.2 s with ⟨_, _, _⟩
  rfl

theorem foldl_pushRootChild (root : Nat) (rest : Arena × Queue → List QueueCall) :
    ∀ (ts : List Nat) {p : Arena × YrQueue} {p' : Arena × Queue},
      Sim (pushCalls nodeAt (fun p s => some (FailureLinks.pushRootChild root p s)) rest ts) p p' →
      Sim rest (ts.foldl (pushRootChild nodeAt root) p) (ts.foldl (FailureLinks.pushRootChild root) p')
  | [], _, _, h => h
  | t :: ts, (A, queue), (_, q), ⟨rfl, h⟩ => by
    obtain ⟨hA, hq⟩ := QueueRel.push h
    refine foldl_pushRootChild root rest ts ⟨?_, ?_⟩
    · rw [pushRootChild_eq]
      exact congrArg (setFailure · t root) hA
    · have hq' : (FailureLinks.pushRootChild root (A, q) t).2 = (FailureLinks.yrAcQueuePush A q t).2.1 := by
        rw [pushRootChild_eq]
      dsimp only at hq
      rw [hq']
      exact hq.frame ⟨rfl, rfl⟩

/-- `yr_ac_create_failure_links` on its linked `QUEUE` computes what the list model computes, as
long as `yr_malloc` never hands out the address of a node still in the queue. -/
theorem create_failure_links_linked_queue (nodeAt : Nat → Nat) (memory : Nat → QueueNode)
    (i : UInt8) (A : Arena) (automaton : AcAutomaton)
    (hfresh : freshNodes A [] (createFailureLinksCalls nodeAt i A automaton) = true) :
    yrAcCreateFailureLinks nodeAt memory i A automaton =
      FailureLinks.yrAcCreateFailureLinks i A automaton := by
  have hs := @foldl_pushRootChild nodeAt automaton.root
    (fun p => loopCalls nodeAt i automaton.root (p.1.stateCount + 1) p.1 p.2)
    (children (setFailure A automaton.root automaton.root) automaton.root)
    (setFailure A automaton.root automaton.root, ⟨none, none, memory⟩)
    (setFailure A automaton.root automaton.root, [])
    ⟨rfl, [], holds_empty memory, rfl,
      (freshNodes_congr (A := A) (B := setFailure A automaton.root automaton.root) ⟨rfl, rfl⟩ _ _).trans
        hfresh⟩
  unfold yrAcCreateFailureLinks FailureLinks.yrAcCreateFailureLinks
  dsimp only
  rcases hl : (children (setFailure A automaton.root automaton.root) automaton.root).foldl
    (FailureLinks.pushRootChild automaton.root) (setFailure A automaton.root automaton.root, [])
    with ⟨B, q⟩
  rw [hl] at hs
  obtain ⟨hB, hq⟩ := hs
  dsimp only at hB hq ⊢
  rw [← hB] at hq ⊢
  exact bfsLoop_refines i automaton.root _ _ _ q hq

theorem create_failure_links_linked_queue_ab :
    freshNodes abAutomaton [] (createFailureLinksCalls (fun _ => 0) 0 abAutomaton ⟨0⟩) = true ∧
      yrAcCreateFailureLinks (fun _ => 0) (fun _ => ⟨none, none, 0⟩) 0 abAutomaton ⟨0⟩ =
        FailureLinks.yrAcCreateFailureLinks 0 abAutomaton ⟨0⟩ :=
  ⟨rfl, create_failure_links_linked_queue _ _ 0 abAutomaton ⟨0⟩ rfl⟩

example : createFailureLinksCalls (fun _ => 0) 0 abAutomaton ⟨0⟩ =
    [.push 0 1, .pop, .push 0 2, .pop] := rfl

end YaraAhoCorasick.FailureQueue
