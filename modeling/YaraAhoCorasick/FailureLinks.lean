import YaraAhoCorasick.AddString

namespace YaraAhoCorasick.FailureLinks

open YaraAhoCorasick.Tokens YaraAhoCorasick.Automaton YaraAhoCorasick.AddString

abbrev Queue := List Nat

/-- `_yr_ac_queue_push`: the node is allocated with `yr_malloc`; on failure the queue is
unchanged and the error is returned. -/
def yrAcQueuePush (A : Arena) (queue : Queue) (value : Nat) : Arena × Queue × YrError :=
  match A.allocate with
  | (true, A) => (A, queue ++ [value], .success)
  | (false, A) => (A, queue, .insuficientMemory)

/-- `while (match->next != NULL) match = match->next;`, with `fuel` steps. -/
def matchTail (A : Arena) : Nat → Nat → Option Nat
  | 0, _ => none
  | fuel + 1, m =>
    match (A.matchRecords m).next with
    | none => some m
    | some m' => matchTail A fuel m'

def setNext (A : Arena) (m : Nat) (target : Option Nat) : Arena :=
  A.setMatch m { A.matchRecords m with next := target }

def setMatchHead (A : Arena) (s : Nat) (target : Option Nat) : Arena :=
  A.setState s { A.states s with matchHead := target }

def setFailure (A : Arena) (s : Nat) (target : Nat) : Arena :=
  A.setState s { A.states s with failure := some target }

/-- The first part of the loop body: the root's chain goes after the last record of a
chain whose backtrack is positive, or becomes the chain of a state that has none. -/
def appendRootMatches (A : Arena) (root current : Nat) : Option Arena :=
  match (A.states current).matchHead with
  | some m => do
    let tail ← matchTail A (A.matchCount + 1) m
    if 0 < (A.matchRecords tail).backtrack then
      some (setNext A tail (A.states root).matchHead)
    else some A
  | none => some (setMatchHead A current (A.states root).matchHead)

/-- The inner `while (1)` loop, from `failureState`: `some temp` when
`yr_ac_next_state (failureState, i)` finds `temp`, `none` when it reaches the root. -/
def failureSearch (A : Arena) (root : Nat) (i : UInt8) :
    Nat → Nat → Option (Option Nat)
  | 0, _ => none
  | fuel + 1, failureState =>
    match yrAcNextState A failureState i with
    | some temp => some (some temp)
    | none =>
      if failureState = root then some none
      else (A.states failureState).failure.bind (failureSearch A root i fuel)

def appendFailureMatches (A : Arena) (transition temp : Nat) : Option Arena :=
  match (A.states transition).matchHead with
  | none => some (setMatchHead A transition (A.states temp).matchHead)
  | some m => do
    let tail ← matchTail A (A.matchCount + 1) m
    some (setNext A tail (A.states temp).matchHead)

/-- The body of the loop over the children of `current`: push the child, then set its
failure link. The lookup is made on `i`, a local the function never assigns. -/
def linkChild (i : UInt8) (root current : Nat) (A : Arena) (queue : Queue)
    (transition : Nat) : Option (Arena × Queue) := do
  let (A, queue, _) := yrAcQueuePush A queue transition
  let failureState ← (A.states current).failure
  match ← failureSearch A root i ((A.states failureState).depth + 1) failureState with
  | some temp =>
    let A ← appendFailureMatches (setFailure A transition temp) transition temp
    some (A, queue)
  | none => some (setFailure A transition root, queue)

/-- One iteration of the BFS loop, on the popped state `current`. Its body changes no
transition, so the children are enumerated once, by `children`. -/
def popState (i : UInt8) (root : Nat) (A : Arena) (current : Nat) (queue : Queue) :
    Option (Arena × Queue) := do
  let A ← appendRootMatches A root current
  (children A current).foldlM (fun p t => linkChild i root current p.1 p.2 t) (A, queue)

/-- `while (!_yr_ac_queue_is_empty (&queue))`, with `fuel` iterations. -/
def bfsLoop (i : UInt8) (root : Nat) : Nat → Arena → Queue → Option Arena
  | 0, _, _ => none
  | _ + 1, A, [] => some A
  | fuel + 1, A, current :: queue => do
    let (A, queue) ← popState i root A current queue
    bfsLoop i root fuel A queue

/-- The iterations of `bfsLoop`: each state it pops, with the arena it pops it from. -/
def bfsTrace (i : UInt8) (root : Nat) : Nat → Arena → Queue → List (Nat × Arena)
  | 0, _, _ => []
  | _ + 1, _, [] => []
  | fuel + 1, A, current :: queue =>
    (current, A) :: match popState i root A current queue with
      | some (A, queue) => bfsTrace i root fuel A queue
      | none => []

def pushRootChild (root : Nat) (p : Arena × Queue) (s : Nat) : Arena × Queue :=
  let (A, queue, _) := yrAcQueuePush p.1 p.2 s
  (setFailure A s root, queue)

/-- `yr_ac_create_failure_links`, `i` being the value the uninitialised `i` holds; `none` is a
run that dereferences an unset link or needs more than one iteration per state. -/
def yrAcCreateFailureLinks (i : UInt8) (A : Arena) (automaton : AcAutomaton) : Option Arena :=
  let root := automaton.root
  let A := setFailure A root root
  let (A, queue) := (children A root).foldl (pushRootChild root) (A, [])
  bfsLoop i root (A.stateCount + 1) A queue

/-- The iterations of the loop of `yr_ac_create_failure_links`. -/
def createFailureLinksTrace (i : UInt8) (A : Arena) (automaton : AcAutomaton) :
    List (Nat × Arena) :=
  let root := automaton.root
  let A := setFailure A root root
  let (A, queue) := (children A root).foldl (pushRootChild root) (A, [])
  bfsTrace i root (A.stateCount + 1) A queue

/-- The automaton of the ASCII string "ab" (states 0, 1, 2), built with every allocation
succeeding; the next call, the push of state 1 by `yr_ac_create_failure_links`, fails. -/
def abArena : Arena :=
  (yrAcAddString ⟨fun _ => false, fun _ => false⟩
    (yrAcCreateAutomaton (emptyArena (fun n => n != 8))).1 ⟨0⟩
    ⟨false, false, true, false, false, "ab".toList.map Char.toUInt8, [], []⟩).arena

theorem create_failure_links_drops_unpushed_state (i : UInt8) :
    ∃ A', yrAcCreateFailureLinks i abArena ⟨0⟩ = some A' ∧
      reach A' 0 ("ab".toList.map Char.toUInt8) = some 2 ∧ (A'.states 2).failure = none :=
  ⟨_, rfl, rfl, rfl⟩

end YaraAhoCorasick.FailureLinks
