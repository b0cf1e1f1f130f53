import Mathlib.Data.List.Nodup
import YaraAhoCorasick.FailureLinks

namespace YaraAhoCorasick.LinkedQueue

open YaraAhoCorasick.Automaton

/-- `QUEUE_NODE`: the addresses of its neighbours and the state it holds. -/
structure QueueNode where
  previous : Option Nat
  next : Option Nat
  value : Nat

/-- `QUEUE`, with the memory of the nodes it points to. -/
structure YrQueue where
  head : Option Nat
  tail : Option Nat
  nodes : Nat → QueueNode

/-- `_yr_ac_queue_push`, where `pushedNode` is the address `yr_malloc` returns when it
succeeds. -/
def yrAcQueuePush (A : Arena) (pushedNode : Nat) (queue : YrQueue) (value : Nat) :
    Arena × YrQueue × YrError :=
  match A.allocate with
  | (false, A) => (A, queue, .insuficientMemory)
  | (true, A) =>
    let nodes := Function.update queue.nodes pushedNode ⟨queue.tail, none, value⟩
    let queue := match queue.tail with
      | some tail =>
        { queue with nodes := Function.update nodes tail { nodes tail with next := some pushedNode } }
      | none => { queue with nodes := nodes, head := some pushedNode }
    (A, { queue with tail := some pushedNode }, .success)

/-- `_yr_ac_queue_pop`, `none` for `NULL`. The popped node is freed: nothing points to it. -/
def yrAcQueuePop (queue : YrQueue) : Option Nat × YrQueue :=
  match queue.head with
  | none => (none, queue)
  | some poppedNode =>
    let queue := { queue with head := (queue.nodes poppedNode).next }
    let queue := match queue.head with
      | some head =>
        { queue with nodes := Function.update queue.nodes head { queue.nodes head with previous := none } }
      | none => { queue with tail := none }
    (some (queue.nodes poppedNode).value, queue)

def yrAcQueueIsEmpty (queue : YrQueue) : Bool := queue.head.isNone

/-- The nodes `ns` follow one another by `next` and back by `previous`; the first points back
to `prev` and the last on to `nxt`. -/
def Linked (nodes : Nat → QueueNode) : Option Nat → List Nat → Option Nat → Prop
  | _, [], _ => True
  | prev, n :: ns, nxt =>
    (nodes n).previous = prev ∧ (nodes n).next = ns.head?.or nxt ∧ Linked nodes (some n) ns nxt

/-- `queue` is made of the nodes `ns`, front first. -/
structure Holds (queue : YrQueue) (ns : List Nat) : Prop where
  head : queue.head = ns.head?
  tail : queue.tail = ns.getLast?
  linked : Linked queue.nodes none ns none
  nodup : ns.Nodup

def values (queue : YrQueue) (ns : List Nat) : List Nat := ns.map fun n => (queue.nodes n).value

section Linked

variable {nodes nodes' : Nat → QueueNode}

theorem Linked.frame : ∀ {prev ns nxt}, Linked nodes prev ns nxt →
    (∀ n ∈ ns, nodes' n = nodes n) → Linked nodes' prev ns nxt
  | _, [], _, _, _ => trivial
  | _, n :: ns, _, ⟨hp, hn, h⟩, he => by
    rw [Linked, he n (List.mem_cons_self _ _)]
    exact ⟨hp, hn, h.frame fun m hm => he m (List.mem_cons_of_mem _ hm)⟩

theorem linked_append_singleton {a : Nat} {nxt : Option Nat} :
    ∀ {prev ns}, Linked nodes prev (ns ++ [a]) nxt ↔
      Linked nodes prev ns (some a) ∧ (nodes a).previous = ns.getLast?.or prev ∧
        (nodes a).next = nxt
  | _, [] => by simp [Linked]
  | _, [m] => by simp [Linked, and_assoc]
  | _, m :: m' :: ns => by
    rw [List.cons_append, Linked, Linked, linked_append_singleton]
    simp [and_assoc, List.getLast?_cons, Option.or_some]

end Linked

theorem holds_empty (nodes : Nat → QueueNode) : Holds ⟨none, none, nodes⟩ [] :=
  ⟨rfl, rfl, trivial, List.nodup_nil⟩

variable {queue : YrQueue} {ns : List Nat}

theorem yrAcQueueIsEmpty_iff (h : Holds queue ns) : yrAcQueueIsEmpty queue = true ↔ values queue ns = [] := by
  rw [yrAcQueueIsEmpty, h.head, values, List.map_eq_nil_iff]
  cases ns <;> simp

theorem yrAcQueuePush_arena (A : Arena) (pushedNode : Nat) (queue : YrQueue) (value : Nat) :
    (yrAcQueuePush A pushedNode queue value).1 = A.allocate.2 := by
  unfold yrAcQueuePush
  rcases A.allocate with ⟨_ | _, _⟩ <;> rfl

theorem yrAcQueuePush_spec (h : Holds queue ns) (A : Arena) {pushedNode : Nat}
    (hfresh : pushedNode ∉ ns) (value : Nat) :
    (yrAcQueuePush A pushedNode queue value).1 =
        (FailureLinks.yrAcQueuePush A (values queue ns) value).1 ∧
      (yrAcQueuePush A pushedNode queue value).2.2 =
        (FailureLinks.yrAcQueuePush A (values queue ns) value).2.2 ∧
      Holds (yrAcQueuePush A pushedNode queue value).2.1
        (if A.allocate.1 then ns ++ [pushedNode] else ns) ∧
      values (yrAcQueuePush A pushedNode queue value).2.1
          (if A.allocate.1 then ns ++ [pushedNode] else ns) =
        (FailureLinks.yrAcQueuePush A (values queue ns) value).2.1 := by
  unfold yrAcQueuePush FailureLinks.yrAcQueuePush
  rcases A.allocate with ⟨_ | _, A'⟩
  · exact ⟨rfl, rfl, h, rfl⟩
  refine ⟨rfl, rfl, ?_⟩
  rw [if_pos rfl]
  rcases ns.eq_nil_or_concat with rfl | ⟨ms, t, rfl⟩
  · have htl : queue.tail = none := h.tail
    simp only [htl]
    exact ⟨⟨rfl, rfl, by simp [Linked], List.nodup_singleton _⟩, by simp [values]⟩
  rw [List.concat_eq_append] at h hfresh ⊢
  have htl : queue.tail = some t := by rw [h.tail]; simp
  have hnd := List.nodup_append.mp h.nodup
  have ht : t ≠ pushedNode := fun e => hfresh (e ▸ List.mem_append_right _ (List.mem_singleton_self _))
  have hms : ∀ m ∈ ms, m ≠ t ∧ m ≠ pushedNode := fun m hm =>
    ⟨fun e => hnd.2.2 hm (e ▸ List.mem_singleton_self _), fun e => hfresh (e ▸ List.mem_append_left _ hm)⟩
  obtain ⟨hlink, hprev, -⟩ := linked_append_singleton.mp h.linked
  simp only [htl]
  refine ⟨⟨by simp [h.head], by simp, ?_, ?_⟩, ?_⟩
  · rw [linked_append_singleton, linked_append_singleton]
    refine ⟨⟨hlink.frame fun m hm => ?_, ?_, ?_⟩, ?_, ?_⟩
    · simp [Function.update_noteq, (hms _ hm).1, (hms _ hm).2]
    all_goals simp [Function.update_noteq, ht, Ne.symm ht, hprev]
  · exact List.nodup_append.mpr ⟨h.nodup, List.nodup_singleton _, List.disjoint_singleton.mpr hfresh⟩
  · simp only [values, List.map_append, List.map_cons, List.map_nil]
    refine congrArg₂ _ (congrArg₂ _ (List.map_congr_left fun m hm => ?_) ?_) ?_
    · simp [Function.update_noteq, (hms _ hm).1, (hms _ hm).2]
    all_goals simp [Function.update_noteq, ht, Ne.symm ht]

theorem yrAcQueuePush_refines (h : Holds queue ns) (A : Arena) {pushedNode : Nat}
    (hfresh : pushedNode ∉ ns) (value : Nat) :
    (yrAcQueuePush A pushedNode queue value).1 =
        (FailureLinks.yrAcQueuePush A (values queue ns) value).1 ∧
      (yrAcQueuePush A pushedNode queue value).2.2 =
        (FailureLinks.yrAcQueuePush A (values queue ns) value).2.2 ∧
      ∃ ns', Holds (yrAcQueuePush A pushedNode queue value).2.1 ns' ∧
        values (yrAcQueuePush A pushedNode queue value).2.1 ns' =
          (FailureLinks.yrAcQueuePush A (values queue ns) value).2.1 :=
  let ⟨ha, he, hh, hv⟩ := yrAcQueuePush_spec h A hfresh value
  ⟨ha, he, _, hh, hv⟩

theorem yrAcQueuePop_refines (h : Holds queue ns) :
    (yrAcQueuePop queue).1 = (values queue ns).head? ∧ Holds (yrAcQueuePop queue).2 ns.tail ∧
      values (yrAcQueuePop queue).2 ns.tail = (values queue ns).tail := by
  rcases ns with _ | ⟨n, _ | ⟨m, ms⟩⟩
  · simp only [yrAcQueuePop, h.head, List.head?_nil]
    exact ⟨rfl, h, rfl⟩
  · obtain ⟨-, hn, -⟩ := h.linked
    simp only [yrAcQueuePop, h.head, hn, List.head?_cons, List.head?_nil, Option.or_self]
    exact ⟨rfl, ⟨rfl, rfl, trivial, List.nodup_nil⟩, rfl⟩
  · obtain ⟨-, hn, -, hm, hlink⟩ := h.linked
    have hnd := List.nodup_cons.mp h.nodup
    have hnm : n ≠ m := fun e => hnd.1 (e ▸ List.mem_cons_self _ _)
    have hms : ∀ x ∈ ms, x ≠ m := fun x hx e => (List.nodup_cons.mp hnd.2).1 (e ▸ hx)
    simp only [List.head?_cons, Option.or_some] at hn
    simp only [yrAcQueuePop, h.head, hn, List.head?_cons]
    refine ⟨by simp [values, Function.update_noteq hnm], ⟨rfl, by simp [h.tail], ?_, hnd.2⟩, ?_⟩
    · exact ⟨by simp, by simpa using hm, hlink.frame fun x hx => by simp [hms x hx]⟩
    · simp only [values, List.tail_cons, List.map_cons]
      refine congrArg₂ _ (by simp) (List.map_congr_left fun x hx => by simp [hms x hx])

/-- A call on the queue: a push, with the address `yr_malloc` hands out for its node, or a pop. -/
inductive QueueCall
  | push (pushedNode value : Nat)
  | pop

inductive QueueResult
  | pushed (error : YrError)
  | popped (value : Option Nat)
deriving DecidableEq

def runQueue (A : Arena) (queue : YrQueue) : List QueueCall → Arena × YrQueue × List QueueResult
  | [] => (A, queue, [])
  | .push pushedNode value :: calls =>
    let pushed := yrAcQueuePush A pushedNode queue value
    let run := runQueue pushed.1 pushed.2.1 calls
    (run.1, run.2.1, .pushed pushed.2.2 :: run.2.2)
  | .pop :: calls =>
    let popped := yrAcQueuePop queue
    let run := runQueue A popped.2 calls
    (run.1, run.2.1, .popped popped.1 :: run.2.2)

def runList (A : Arena) (queue : List Nat) : List QueueCall → Arena × List Nat × List QueueResult
  | [] => (A, queue, [])
  | .push _ value :: calls =>
    let pushed := FailureLinks.yrAcQueuePush A queue value
    let run := runList pushed.1 pushed.2.1 calls
    (run.1, run.2.1, .pushed pushed.2.2 :: run.2.2)
  | .pop :: calls =>
    let run := runList A queue.tail calls
    (run.1, run.2.1, .popped queue.head? :: run.2.2)

/-- Whether no push of the run gets the address of a node still in the queue, which starts as
`ns`: a node belongs to it from its push to its pop. -/
def freshNodes (A : Arena) (ns : List Nat) : List QueueCall → Bool
  | [] => true
  | .push pushedNode _ :: calls =>
    decide (pushedNode ∉ ns) &&
      freshNodes A.allocate.2 (if A.allocate.1 then ns ++ [pushedNode] else ns) calls
  | .pop :: calls => freshNodes A ns.tail calls

/-- The doubly linked `QUEUE` is a first-in first-out queue over every run of pushes and pops in
which `yr_malloc` never hands out the address of a node still in the queue. -/
theorem queue_run_refines (A : Arena) (calls : List QueueCall) (h : Holds queue ns)
    (hfresh : freshNodes A ns calls = true) :
    (runQueue A queue calls).1 = (runList A (values queue ns) calls).1 ∧
      (runQueue A queue calls).2.2 = (runList A (values queue ns) calls).2.2 ∧
      ∃ ns', Holds (runQueue A queue calls).2.1 ns' ∧
        values (runQueue A queue calls).2.1 ns' = (runList A (values queue ns) calls).2.1 := by
  induction calls generalizing A queue ns with
  | nil => exact ⟨rfl, rfl, ns, h, rfl⟩
  | cons call calls ih =>
    cases call with
    | push pushedNode value =>
      simp only [freshNodes, Bool.and_eq_true, decide_eq_true_eq] at hfresh
      obtain ⟨ha, he, hh, hv⟩ := yrAcQueuePush_spec h A hfresh.1 value
      have hrun := ih (yrAcQueuePush A pushedNode queue value).1 hh
        (by rw [yrAcQueuePush_arena]; exact hfresh.2)
      simp only [runQueue, runList, ← ha, ← he, ← hv]
      exact ⟨hrun.1, by rw [hrun.2.1], hrun.2.2⟩
    | pop =>
      obtain ⟨hpop, hh, hv⟩ := yrAcQueuePop_refines h
      have hrun := ih A hh hfresh
      simp only [runQueue, runList, ← hpop, ← hv]
      exact ⟨hrun.1, by rw [hrun.2.1], hrun.2.2⟩

def failedPushRun : List QueueCall := [.push 7 1, .push 8 2, .pop, .push 7 3, .pop, .pop]

theorem queue_run_refines_failedPush :
    Holds ⟨none, none, fun _ => ⟨none, none, 0⟩⟩ [] ∧
      freshNodes (emptyArena fun k => k ≠ 1) [] failedPushRun = true ∧
      (runQueue (emptyArena fun k => k ≠ 1) ⟨none, none, fun _ => ⟨none, none, 0⟩⟩
          failedPushRun).2.2 =
        (runList (emptyArena fun k => k ≠ 1) [] failedPushRun).2.2 :=
  ⟨holds_empty _, rfl,
    (queue_run_refines (emptyArena fun k => k ≠ 1) failedPushRun (holds_empty _) rfl).2.1⟩

example : (runList (emptyArena fun k => k ≠ 1) [] failedPushRun).2.2 =
    [.pushed .success, .pushed .insuficientMemory, .popped (some 1), .pushed .success,
      .popped (some 3), .popped none] := rfl

end YaraAhoCorasick.LinkedQueue
